import ShiftReduce.Proofs.Collection

/-! # Grammars under other numbers

A grammar can be found in another one under other numbers for its symbols and rules
(`Renumbering.Embeds`): a part of the nonterminals, with which the bodies of their rules stay in this
part, has the same rules in both. Then closures, goto sets and the symbols that an item set expects are
the same but for the numbers, and so are the item sets of the two automata
(`Renumbering.Embeds.mem_itemSets_iff`). What is shadowed by what, and in which order the rules stand,
makes no difference, as long as each rule has one number that is used. -/

namespace ShiftReduce

/-- Other numbers for symbols and rules. -/
structure Renumbering where
  /-- the number that a terminal gets -/
  terminal : Terminal → Terminal
  /-- the number that a nonterminal gets -/
  nonterminal : Nonterminal → Nonterminal
  /-- the number that a rule gets -/
  rule : Nat → Nat
  /-- different terminals get different numbers -/
  terminal_injective : Function.Injective terminal
  /-- different nonterminals get different numbers -/
  nonterminal_injective : Function.Injective nonterminal

namespace Renumbering

variable {ρ : Renumbering}

/-- A symbol by its other number. -/
def symbol (ρ : Renumbering) : Symbol → Symbol
  | .terminal t => .terminal (ρ.terminal t)
  | .nonterminal n => .nonterminal (ρ.nonterminal n)

/-- A rule over the other numbers of its symbols. -/
def ofRule (ρ : Renumbering) (r : Rule) : Rule := ⟨ρ.nonterminal r.left, r.right.map ρ.symbol⟩

/-- An item of a rule by its other number. -/
def item (ρ : Renumbering) (i : Item) : Item := ⟨ρ.rule i.rule, i.marker⟩

/-- A set of items by the other numbers of their rules. -/
def items (ρ : Renumbering) (s : ItemSet) : ItemSet := .ofList (s.items.map ρ.item)

/-- A terminal as a symbol gets the terminal's new number. -/
@[simp] theorem symbol_terminal (t : Terminal) :
    ρ.symbol (.terminal t) = .terminal (ρ.terminal t) := rfl

/-- A nonterminal as a symbol gets the nonterminal's new number. -/
@[simp] theorem symbol_nonterminal (n : Nonterminal) :
    ρ.symbol (.nonterminal n) = .nonterminal (ρ.nonterminal n) := rfl

/-- The head of a renumbered rule is the renumbered head. -/
@[simp] theorem left_ofRule (r : Rule) : (ρ.ofRule r).left = ρ.nonterminal r.left := rfl

/-- The body of a renumbered rule is the renumbered body. -/
@[simp] theorem right_ofRule (r : Rule) : (ρ.ofRule r).right.toList = r.right.toList.map ρ.symbol :=
  Array.toList_map

/-- A renumbered body is as long as before. -/
@[simp] theorem size_ofRule (r : Rule) : (ρ.ofRule r).right.size = r.right.size :=
  Array.size_map

/-- A renumbered item has the new number of its rule. -/
@[simp] theorem rule_item (i : Item) : (ρ.item i).rule = ρ.rule i.rule := rfl

/-- A renumbered item keeps its marker. -/
@[simp] theorem marker_item (i : Item) : (ρ.item i).marker = i.marker := rfl

/-- A renumbered set has the renumbered items. -/
@[simp] theorem mem_items {s : ItemSet} {j : Item} : j ∈ ρ.items s ↔ ∃ i ∈ s, ρ.item i = j := by
  unfold items
  rw [ItemSet.mem_ofList, List.mem_map]
  rfl

/-- Different symbols stay different. -/
theorem symbol_injective : Function.Injective ρ.symbol := by
  intro x y h
  cases x with
  | terminal t =>
    cases y with
    | terminal u => exact congrArg _ (ρ.terminal_injective (Symbol.terminal.inj h))
    | nonterminal n => cases h
  | nonterminal m =>
    cases y with
    | terminal u => cases h
    | nonterminal n => exact congrArg _ (ρ.nonterminal_injective (Symbol.nonterminal.inj h))

/-- Only a nonterminal has the number of a nonterminal. -/
theorem symbol_eq_nonterminal {x : Symbol} {m : Nonterminal} :
    ρ.symbol x = .nonterminal m ↔ ∃ n, x = .nonterminal n ∧ ρ.nonterminal n = m := by
  cases x with
  | terminal t => simp
  | nonterminal n => simp

/-- Only a terminal has the number of a terminal. -/
theorem symbol_eq_terminal {x : Symbol} {u : Terminal} :
    ρ.symbol x = .terminal u ↔ ∃ t, x = .terminal t ∧ ρ.terminal t = u := by
  cases x with
  | terminal t => simp
  | nonterminal n => simp

/-- Different rules stay different. -/
theorem ofRule_injective : Function.Injective ρ.ofRule := by
  intro r s h
  obtain ⟨hleft, hright⟩ := Rule.mk.inj h
  have hbody : r.right = s.right := Array.map_inj_right symbol_injective |>.mp hright
  cases r
  cases s
  exact congr (congrArg Rule.mk (ρ.nonterminal_injective hleft)) hbody

/-! ## Embedded grammars -/

/-- The rules of some nonterminals of a grammar are those of another grammar under other numbers. -/
structure Embeds (ρ : Renumbering) (g g' : Grammar) (live : Nonterminal → Prop) : Prop where
  /-- the first grammar is well-formed -/
  wf : g.WellFormed
  /-- the second grammar is well-formed -/
  wf' : g'.WellFormed
  /-- the fresh start symbol is the fresh start symbol -/
  freshStart : ρ.nonterminal .freshStart = .freshStart
  /-- it is among the nonterminals -/
  live_freshStart : live .freshStart
  /-- so are the nonterminals in the bodies of their rules -/
  live_body : ∀ r ∈ g.rules.toList, live r.left → ∀ n, .nonterminal n ∈ r.right.toList → live n
  /-- a number of a rule that is used gets one that is used for that rule -/
  usesRule : ∀ k r, g.UsesRule k r → live r.left → g'.UsesRule (ρ.rule k) (ρ.ofRule r)
  /-- the nonterminals have no other rules -/
  exists_rule : ∀ r' ∈ g'.rules.toList, ∀ n, live n → r'.left = ρ.nonterminal n →
    ∃ r ∈ g.rules.toList, r' = ρ.ofRule r

/-- An item of a rule of one of some nonterminals. -/
def IsLive (g : Grammar) (live : Nonterminal → Prop) (i : Item) : Prop :=
  ∃ r, g.UsesRule i.rule r ∧ live r.left

namespace Embeds

variable {g g' : Grammar} {live : Nonterminal → Prop}

/-! ### Rules -/

/-- **A live nonterminal has the renumbered rules of its old number**, and no others. -/
theorem mem_rulesOf (h : ρ.Embeds g g' live) {n : Nonterminal} (hn : live n) {k' : Nat} :
    k' ∈ g'.rulesOf (ρ.nonterminal n) ↔ ∃ k ∈ g.rulesOf n, ρ.rule k = k' := by
  simp only [Grammar.mem_rulesOf_iff_usesRule]
  constructor
  · rintro ⟨r', hr', hleft⟩
    obtain ⟨r, hr, rfl⟩ := h.exists_rule r' (Grammar.mem_rules_of_rule? hr'.1) n hn hleft
    obtain rfl : r.left = n := ρ.nonterminal_injective hleft
    -- both numbers are used for the same rule
    obtain ⟨k, hk⟩ := Grammar.exists_usesRule hr
    exact ⟨k, ⟨r, hk, rfl⟩, (h.usesRule k r hk hn).unique hr'⟩
  · rintro ⟨k, ⟨r, hr, rfl⟩, rfl⟩
    exact ⟨_, h.usesRule k r hr hn, rfl⟩

/-- Rule 0 keeps its number. -/
theorem rule_zero (h : ρ.Embeds g g' live) : ρ.rule 0 = 0 := by
  have huses := h.usesRule 0 _ h.wf.usesRule_zero h.live_freshStart
  exact h.wf'.eq_zero_of_left huses.1 h.freshStart

/-- The start symbol is renumbered to the start symbol. -/
theorem start (h : ρ.Embeds g g' live) : ρ.nonterminal g.start = g'.start := by
  have huses := h.usesRule 0 _ h.wf.usesRule_zero h.live_freshStart
  rw [h.rule_zero] at huses
  have hrule := Option.some.inj (huses.1.symm.trans h.wf'.rule?_zero)
  simpa using congrArg (·.right.toList) hrule

/-! ### Items -/

/-- A renumbered item expects the renumbered symbol. -/
theorem next?_item (h : ρ.Embeds g g' live) {i : Item} (hi : IsLive g live i) :
    (ρ.item i).next? g' = (i.next? g).map ρ.symbol := by
  obtain ⟨r, hr, hlive⟩ := hi
  rw [Item.next?_eq (h.usesRule _ r hr hlive).1, Item.next?_eq hr.1, right_ofRule, List.getElem?_map,
    marker_item]

/-- What a renumbered item expects is renumbered from what the item expects. -/
theorem next?_item_eq_some (h : ρ.Embeds g g' live) {i : Item} (hi : IsLive g live i)
    {x' : Symbol} :
    (ρ.item i).next? g' = some x' ↔ ∃ x, i.next? g = some x ∧ ρ.symbol x = x' := by
  rw [h.next?_item hi, Option.map_eq_some_iff]

/-- Items of different rules get different numbers. -/
theorem item_inj (h : ρ.Embeds g g' live) {i j : Item} (hi : IsLive g live i)
    (hj : IsLive g live j) (heq : ρ.item i = ρ.item j) : i = j := by
  obtain ⟨r, hr, hlive⟩ := hi
  obtain ⟨s, hs, hlive'⟩ := hj
  obtain ⟨hrule, hmarker⟩ := Item.ext_iff.mp heq
  have hr' := h.usesRule _ r hr hlive
  have hs' := h.usesRule _ s hs hlive'
  rw [← show ρ.rule i.rule = ρ.rule j.rule from hrule] at hs'
  obtain rfl := ofRule_injective (Option.some.inj (hr'.1.symm.trans hs'.1))
  exact Item.ext_iff.mpr ⟨hr.unique hs, hmarker⟩

/-- What an item expects is among the nonterminals when its head is. -/
theorem live_of_next? (h : ρ.Embeds g g' live) {i : Item} (hi : IsLive g live i) {n : Nonterminal}
    (hnext : i.next? g = some (.nonterminal n)) : live n := by
  obtain ⟨r, hr, hlive⟩ := hi
  rw [Item.next?_eq hr.1] at hnext
  exact h.live_body r (Grammar.mem_rules_of_rule? hr.1) hlive n (List.mem_of_getElem? hnext)

/-- An item of a rule of a live nonterminal is live. -/
theorem isLive_of_mem_rulesOf {n : Nonterminal} (hn : live n) {i : Item} (hi : i.rule ∈ g.rulesOf n) :
    IsLive g live i := by
  obtain ⟨r, hr, rfl⟩ := Grammar.mem_rulesOf_iff_usesRule.mp hi
  exact ⟨r, hr, hn⟩

/-! ### Left corners -/

/-- The left corner of a live nonterminal is live. -/
theorem live_of_corner (h : ρ.Embeds g g' live) {m n : Nonterminal} (hm : live m)
    (hcorner : g.Corner m n) : live n := by
  obtain ⟨r, hr, rfl, hn⟩ := hcorner
  rw [Grammar.leftCorner?_eq_some, ← Array.getElem?_toList] at hn
  exact h.live_body r hr hm n (List.mem_of_getElem? hn)

/-- The left corner of a renumbered rule is the renumbered left corner. -/
theorem leftCorner?_ofRule (r : Rule) :
    (ρ.ofRule r).leftCorner? = r.leftCorner?.map ρ.nonterminal := by
  ext m
  rw [Grammar.leftCorner?_eq_some, Option.map_eq_some_iff, ← Array.getElem?_toList, right_ofRule,
    List.getElem?_map, Option.map_eq_some_iff]
  simp only [symbol_eq_nonterminal, Grammar.leftCorner?_eq_some, Array.getElem?_toList]
  constructor
  · rintro ⟨x, hx, n, rfl, rfl⟩
    exact ⟨n, hx, rfl⟩
  · rintro ⟨n, hn, rfl⟩
    exact ⟨_, hn, n, rfl, rfl⟩

/-- A live nonterminal has the renumbered left corners of its old number. -/
theorem corner_iff (h : ρ.Embeds g g' live) {m : Nonterminal} (hm : live m) {n' : Nonterminal} :
    g'.Corner (ρ.nonterminal m) n' ↔ ∃ n, g.Corner m n ∧ ρ.nonterminal n = n' := by
  constructor
  · rintro ⟨r', hr', hleft, hn'⟩
    obtain ⟨r, hr, rfl⟩ := h.exists_rule r' hr' m hm hleft
    rw [leftCorner?_ofRule, Option.map_eq_some_iff] at hn'
    obtain ⟨n, hn, rfl⟩ := hn'
    exact ⟨n, ⟨r, hr, ρ.nonterminal_injective hleft, hn⟩, rfl⟩
  · rintro ⟨n, ⟨r, hr, rfl, hn⟩, rfl⟩
    obtain ⟨k, hk⟩ := Grammar.exists_usesRule hr
    refine ⟨ρ.ofRule r, Grammar.mem_rules_of_rule? (h.usesRule k r hk hm).1, rfl, ?_⟩
    rw [leftCorner?_ofRule, hn]
    rfl

/-- A path along left corners stays among the nonterminals. -/
theorem live_of_corners (h : ρ.Embeds g g' live) {m n : Nonterminal} (hm : live m)
    (hpath : Relation.ReflTransGen g.Corner m n) : live n := by
  induction hpath with
  | refl => exact hm
  | tail _ hcorner ih => exact h.live_of_corner ih hcorner

/-- Paths along left corners are the same under other numbers. -/
theorem corners_iff (h : ρ.Embeds g g' live) {m : Nonterminal} (hm : live m) {n' : Nonterminal} :
    Relation.ReflTransGen g'.Corner (ρ.nonterminal m) n' ↔
      ∃ n, Relation.ReflTransGen g.Corner m n ∧ ρ.nonterminal n = n' := by
  constructor
  · intro hpath
    induction hpath with
    | refl => exact ⟨m, .refl, rfl⟩
    | tail _ hcorner ih =>
      obtain ⟨k, hk, rfl⟩ := ih
      obtain ⟨n, hn, rfl⟩ := (h.corner_iff (h.live_of_corners hm hk)).mp hcorner
      exact ⟨n, hk.tail hn, rfl⟩
  · rintro ⟨n, hpath, rfl⟩
    induction hpath with
    | refl => exact .refl
    | tail hk hcorner ih =>
      exact ih.tail ((h.corner_iff (h.live_of_corners hm hk)).mpr ⟨_, hcorner, rfl⟩)

/-! ### Closures and goto sets -/

section ItemSets

variable {s : ItemSet}

/-- Live items expect live nonterminals only. -/
theorem live_of_mem_expectedNonterminals (h : ρ.Embeds g g' live) (hs : ∀ i ∈ s, IsLive g live i)
    {n : Nonterminal} (hn : n ∈ s.expectedNonterminals g) : live n := by
  obtain ⟨i, hi, hnext⟩ := ItemSet.mem_expectedNonterminals.mp hn
  exact h.live_of_next? (hs i hi) hnext

/-- Renumbered items expect the renumbered nonterminals. -/
theorem mem_expectedNonterminals (h : ρ.Embeds g g' live) (hs : ∀ i ∈ s, IsLive g live i)
    {n' : Nonterminal} :
    n' ∈ (ρ.items s).expectedNonterminals g' ↔
      ∃ n ∈ s.expectedNonterminals g, ρ.nonterminal n = n' := by
  simp only [ItemSet.mem_expectedNonterminals, mem_items]
  constructor
  · rintro ⟨_, ⟨i, hi, rfl⟩, hnext⟩
    obtain ⟨x, hx, hsymbol⟩ := (h.next?_item_eq_some (hs i hi)).mp hnext
    obtain ⟨n, rfl, rfl⟩ := symbol_eq_nonterminal.mp hsymbol
    exact ⟨n, ⟨i, hi, hx⟩, rfl⟩
  · rintro ⟨n, ⟨i, hi, hx⟩, rfl⟩
    exact ⟨_, ⟨i, hi, rfl⟩, (h.next?_item_eq_some (hs i hi)).mpr ⟨_, hx, rfl⟩⟩

/-- What live items reach through left corners is live. -/
theorem live_of_mem_leftCorners (h : ρ.Embeds g g' live) (hs : ∀ i ∈ s, IsLive g live i)
    {n : Nonterminal} (hn : n ∈ g.leftCorners (s.expectedNonterminals g)) : live n := by
  obtain ⟨m, hm, hpath⟩ := (Grammar.mem_leftCorners h.wf).mp hn
  exact h.live_of_corners (h.live_of_mem_expectedNonterminals hs hm) hpath

/-- Renumbered items reach the renumbered nonterminals through left corners. -/
theorem mem_leftCorners (h : ρ.Embeds g g' live) (hs : ∀ i ∈ s, IsLive g live i)
    {n' : Nonterminal} :
    n' ∈ g'.leftCorners ((ρ.items s).expectedNonterminals g') ↔
      ∃ n ∈ g.leftCorners (s.expectedNonterminals g), ρ.nonterminal n = n' := by
  rw [Grammar.mem_leftCorners h.wf']
  simp only [h.mem_expectedNonterminals hs, Grammar.mem_leftCorners h.wf]
  constructor
  · rintro ⟨_, ⟨m, hm, rfl⟩, hpath⟩
    obtain ⟨n, hn, rfl⟩ := (h.corners_iff (h.live_of_mem_expectedNonterminals hs hm)).mp hpath
    exact ⟨n, ⟨m, hm, hn⟩, rfl⟩
  · rintro ⟨n, ⟨m, hm, hn⟩, rfl⟩
    exact ⟨_, ⟨m, hm, rfl⟩,
      (h.corners_iff (h.live_of_mem_expectedNonterminals hs hm)).mpr ⟨n, hn, rfl⟩⟩

/-- The closure of live items is live. -/
theorem isLive_of_mem_closure (h : ρ.Embeds g g' live) (hs : ∀ i ∈ s, IsLive g live i) :
    ∀ i ∈ s.closure g, IsLive g live i := by
  intro i hi
  rcases ItemSet.mem_closure.mp hi with hi | ⟨-, n, hn, hrule⟩
  · exact hs i hi
  · exact isLive_of_mem_rulesOf (h.live_of_mem_leftCorners hs hn) hrule

/-- **A closure is the same under other numbers.** -/
theorem closure_items (h : ρ.Embeds g g' live) (hs : ∀ i ∈ s, IsLive g live i) :
    (ρ.items s).closure g' = ρ.items (s.closure g) := by
  refine ItemSet.ext fun j => ?_
  rw [ItemSet.mem_closure]
  simp only [h.mem_leftCorners hs, mem_items]
  constructor
  · rintro (⟨i, hi, rfl⟩ | ⟨hmarker, _, ⟨n, hn, rfl⟩, hrule⟩)
    · exact ⟨i, ItemSet.mem_closure_of_mem hi, rfl⟩
    · obtain ⟨k, hk, hkj⟩ := (h.mem_rulesOf (h.live_of_mem_leftCorners hs hn)).mp hrule
      refine ⟨⟨k, 0⟩, ItemSet.mem_closure.mpr (Or.inr ⟨rfl, n, hn, hk⟩), ?_⟩
      exact Item.ext_iff.mpr ⟨hkj, hmarker.symm⟩
  · rintro ⟨i, hi, rfl⟩
    rcases ItemSet.mem_closure.mp hi with hi | ⟨hmarker, n, hn, hrule⟩
    · exact Or.inl ⟨i, hi, rfl⟩
    · refine Or.inr ⟨hmarker, _, ⟨n, hn, rfl⟩, ?_⟩
      exact (h.mem_rulesOf (h.live_of_mem_leftCorners hs hn)).mpr ⟨i.rule, hrule, rfl⟩

/-- The items behind a symbol are live when those before it are. -/
theorem isLive_of_mem_goto (h : ρ.Embeds g g' live) (hs : ∀ i ∈ s, IsLive g live i) (x : Symbol) :
    ∀ i ∈ s.goto g x, IsLive g live i := by
  rw [ItemSet.goto_eq]
  refine h.isLive_of_mem_closure fun i hi => ?_
  obtain ⟨j, hj, -, rfl⟩ := ItemSet.mem_kernel.mp hi
  exact hs j hj

/-- **A goto set is the same under other numbers.** -/
theorem goto_items (h : ρ.Embeds g g' live) (hs : ∀ i ∈ s, IsLive g live i) (x : Symbol) :
    (ρ.items s).goto g' (ρ.symbol x) = ρ.items (s.goto g x) := by
  have hkernel : (ρ.items s).kernel g' (ρ.symbol x) = ρ.items (s.kernel g x) := by
    refine ItemSet.ext fun j => ?_
    simp only [ItemSet.mem_kernel, mem_items]
    constructor
    · rintro ⟨_, ⟨i, hi, rfl⟩, hnext, rfl⟩
      obtain ⟨y, hy, hsymbol⟩ := (h.next?_item_eq_some (hs i hi)).mp hnext
      obtain rfl := symbol_injective hsymbol
      exact ⟨i.advance, ⟨i, hi, hy, rfl⟩, rfl⟩
    · rintro ⟨_, ⟨i, hi, hnext, rfl⟩, rfl⟩
      exact ⟨_, ⟨i, hi, rfl⟩, (h.next?_item_eq_some (hs i hi)).mpr ⟨x, hnext, rfl⟩, rfl⟩
  have hlive : ∀ i ∈ s.kernel g x, IsLive g live i := by
    intro i hi
    obtain ⟨j, hj, -, rfl⟩ := ItemSet.mem_kernel.mp hi
    exact hs j hj
  rw [ItemSet.goto_eq, hkernel, h.closure_items hlive, ItemSet.goto_eq]

/-- Renumbered items expect the renumbered symbols. -/
theorem mem_expected (h : ρ.Embeds g g' live) (hs : ∀ i ∈ s, IsLive g live i) {x' : Symbol} :
    x' ∈ (ρ.items s).expected g' ↔ ∃ x ∈ s.expected g, ρ.symbol x = x' := by
  simp only [ItemSet.mem_expected, mem_items]
  constructor
  · rintro ⟨_, ⟨i, hi, rfl⟩, hnext⟩
    obtain ⟨x, hx, rfl⟩ := (h.next?_item_eq_some (hs i hi)).mp hnext
    exact ⟨x, ⟨i, hi, hx⟩, rfl⟩
  · rintro ⟨x, ⟨i, hi, hx⟩, rfl⟩
    exact ⟨_, ⟨i, hi, rfl⟩, (h.next?_item_eq_some (hs i hi)).mpr ⟨x, hx, rfl⟩⟩

end ItemSets

/-! ### Item sets -/

/-- The items from which everything starts are live. -/
theorem isLive_start (h : ρ.Embeds g g' live) :
    ∀ i ∈ ItemSet.ofList [Item.start], IsLive g live i := by
  intro i hi
  obtain rfl := List.mem_singleton.mp (ItemSet.mem_ofList.mp hi)
  exact ⟨_, h.wf.usesRule_zero, h.live_freshStart⟩

/-- The automaton starts from the renumbered start items. -/
theorem startItems_eq (h : ρ.Embeds g g' live) :
    Automaton.startItems g' = ρ.items (Automaton.startItems g) := by
  have hitem : ρ.item .start = .start := Item.ext_iff.mpr ⟨h.rule_zero, rfl⟩
  have hstart : ItemSet.ofList [Item.start] = ρ.items (ItemSet.ofList [Item.start]) := by
    refine ItemSet.ext fun j => ?_
    simp only [mem_items, ItemSet.mem_ofList, List.mem_singleton, exists_eq_left, hitem, eq_comm]
  have hclosure := h.closure_items h.isLive_start
  rw [← hstart] at hclosure
  exact hclosure

/-- The item sets hold items of the nonterminals that the grammars have in common. -/
theorem isLive_of_mem_itemSets (h : ρ.Embeds g g' live) :
    ∀ s ∈ Automaton.itemSets g, ∀ i ∈ s, IsLive g live i := by
  refine Automaton.collect_induction (fun s hs s' hs' => ?_) _ _ fun s hs => ?_
  · obtain ⟨x, -, rfl⟩ := ItemSet.mem_gotos.mp hs'
    exact h.isLive_of_mem_goto hs x
  · obtain rfl := List.mem_singleton.mp hs
    exact h.isLive_of_mem_closure h.isLive_start

/-- So do the states. -/
theorem isLive_of_state? (h : ρ.Embeds g g' live) {k : Nat} {s : State}
    (hs : (Automaton.ofGrammar g).state? k = some s) : ∀ i ∈ s.items, IsLive g live i :=
  h.isLive_of_mem_itemSets _ (Automaton.mem_itemSets_of_state? h.wf hs).1

/-- Different item sets stay different. -/
theorem items_inj (h : ρ.Embeds g g' live) {s t : ItemSet} (hs : ∀ i ∈ s, IsLive g live i)
    (ht : ∀ i ∈ t, IsLive g live i) (heq : ρ.items s = ρ.items t) : s = t := by
  refine ItemSet.ext fun i => ⟨fun hi => ?_, fun hi => ?_⟩
  · have hmem : ρ.item i ∈ ρ.items t := heq ▸ mem_items.mpr ⟨i, hi, rfl⟩
    obtain ⟨j, hj, hji⟩ := mem_items.mp hmem
    exact h.item_inj (ht j hj) (hs i hi) hji ▸ hj
  · have hmem : ρ.item i ∈ ρ.items s := heq ▸ mem_items.mpr ⟨i, hi, rfl⟩
    obtain ⟨j, hj, hji⟩ := mem_items.mp hmem
    exact h.item_inj (hs j hj) (ht i hi) hji ▸ hj

/-- **The item sets of the two automata are the same under other numbers.** -/
theorem mem_itemSets_iff (h : ρ.Embeds g g' live) {s' : ItemSet} :
    s' ∈ Automaton.itemSets g' ↔ ∃ s ∈ Automaton.itemSets g, ρ.items s = s' := by
  constructor
  · intro hmem
    refine Automaton.collect_induction
      (p := fun s' => ∃ s ∈ Automaton.itemSets g, ρ.items s = s') ?_ _ _ ?_ s' hmem
    · rintro _ ⟨s, hs, rfl⟩ t' ht'
      have hlive := h.isLive_of_mem_itemSets s hs
      obtain ⟨x', hx', rfl⟩ := ItemSet.mem_gotos.mp ht'
      obtain ⟨x, hx, rfl⟩ := (h.mem_expected hlive).mp hx'
      exact ⟨s.goto g x, Automaton.goto_mem_itemSets h.wf hs hx, (h.goto_items hlive x).symm⟩
    · intro t ht
      obtain rfl := List.mem_singleton.mp ht
      exact ⟨_, List.mem_of_getElem? Automaton.getElem?_itemSets_zero, h.startItems_eq.symm⟩
  · rintro ⟨s, hs, rfl⟩
    refine (Automaton.collect_induction
      (p := fun s => (∀ i ∈ s, IsLive g live i) ∧ ρ.items s ∈ Automaton.itemSets g') ?_ _ _ ?_ s
      hs).2
    · rintro s ⟨hlive, hmem⟩ t ht
      obtain ⟨x, hx, rfl⟩ := ItemSet.mem_gotos.mp ht
      refine ⟨h.isLive_of_mem_goto hlive x, ?_⟩
      rw [← h.goto_items hlive]
      exact Automaton.goto_mem_itemSets h.wf' hmem ((h.mem_expected hlive).mpr ⟨x, hx, rfl⟩)
    · intro t ht
      obtain rfl := List.mem_singleton.mp ht
      refine ⟨h.isLive_of_mem_closure h.isLive_start, ?_⟩
      rw [← h.startItems_eq]
      exact List.mem_of_getElem? Automaton.getElem?_itemSets_zero

end Embeds

end Renumbering

end ShiftReduce
