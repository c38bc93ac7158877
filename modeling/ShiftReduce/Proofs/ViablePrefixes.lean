import ShiftReduce.Proofs.Completeness

/-! # Viable prefixes

Rules that lead from the fresh start symbol to a nonterminal make a chain (`Grammar.Chain`). An item is
valid for a form when a chain leads to the head of its rule and the form is the front of the chain with
the body before the marker (`Item.IsValidFor`). Neither speaks of an automaton.

The closure of a set adds what a chain can go on to, so the items of a state are valid for what a path
to it spells (`Automaton.Path.isValidFor`). A chain can be followed along edges
(`Automaton.exists_leads_of_chain`), so a valid item is in the state that the form leads to. Together
this is `Automaton.recognisesValidItems`. -/

namespace ShiftReduce

/-! ## Chains of rules -/

/-- Rules lead from the fresh start symbol to a nonterminal, each from a nonterminal in the body of the
one before. The front is what stands before these nonterminals. -/
inductive Grammar.Chain (g : Grammar) : List Symbol → Nonterminal → Prop
  | start : Chain g [] .freshStart
  | rule {front before behind : List Symbol} {n : Nonterminal} {r : Rule} (h : Chain g front r.left)
      (hr : r ∈ g.rules.toList) (hbody : r.right.toList = before ++ .nonterminal n :: behind) :
      Chain g (front ++ before) n

/-- A chain leads to the head of the rule, and its front with the body before the marker is the form. -/
def Item.IsValidFor (g : Grammar) (form : List Symbol) (i : Item) : Prop :=
  ∃ r, g.rule? i.rule = some r ∧ i.marker ≤ r.right.size ∧
    ∃ front, g.Chain front r.left ∧ form = front ++ r.right.toList.take i.marker

namespace Grammar.Chain

variable {g : Grammar} {front : List Symbol} {m n : Nonterminal}

/-- A chain goes on to the left corners of its end with the same front. -/
theorem corners (h : g.Chain front m) (hpath : Relation.ReflTransGen g.Corner m n) :
    g.Chain front n := by
  induction hpath with
  | refl => exact h
  | tail _ hcorner ih =>
    obtain ⟨r, hr, rfl, hcorner⟩ := hcorner
    rw [leftCorner?_eq_some, ← Array.getElem?_toList, ← List.head?_eq_getElem?,
      List.head?_eq_some_iff] at hcorner
    obtain ⟨behind, hbody⟩ := hcorner
    have hchain : g.Chain (front ++ []) _ := ih.rule hr hbody
    rwa [List.append_nil] at hchain

/-- **The body of a rule at the end of a chain is part of a derived form** that begins with the front. -/
theorem exists_derives (wf : g.WellFormed) (h : g.Chain front n) {r : Rule}
    (hr : r ∈ g.rules.toList) (hleft : r.left = n) :
    ∃ behind, Derives g.Produces [.nonterminal g.start] (front ++ r.right.toList ++ behind) := by
  induction h generalizing r with
  | start =>
    -- only rule `0` replaces the fresh start symbol, and its body is the start symbol
    rcases wf.eq_or_mem_inputRules hr with rfl | hr
    · exact ⟨[], .refl _⟩
    · exact absurd hleft (wf.hasSymbol_left r hr).1
  | @rule front before behind n r' _ hr' hbody ih =>
    obtain ⟨rest, hderives⟩ := ih hr' rfl
    have hread : r ∈ g.inputRules := by
      rcases wf.eq_or_mem_inputRules hr with rfl | hr
      -- the end of the chain stands in a body, so it is not the fresh start symbol
      · have hmem : Symbol.nonterminal n ∈ r'.right.toList := by simp [hbody]
        exact absurd hleft.symm (wf.hasSymbol_of_mem hr' hmem).1
      · exact hr
    have hstep : Replaces g.Produces (front ++ r'.right.toList ++ rest)
        (front ++ before ++ r.right.toList ++ (behind ++ rest)) := by
      have hof := Replaces.of_rule (p := g.Produces) (front ++ before) (behind ++ rest)
        ⟨r, hread, hleft, rfl⟩
      simpa [hbody] using hof
    exact ⟨behind ++ rest, hderives.tail hstep⟩

end Grammar.Chain

/-! ## Valid items -/

namespace Item.IsValidFor

variable {g : Grammar} {form : List Symbol} {i : Item}

/-- The start item is valid for the empty form. -/
theorem start (wf : g.WellFormed) : Item.start.IsValidFor g [] :=
  ⟨_, wf.rule?_zero, Nat.zero_le _, [], .start, rfl⟩

/-- An item that expects a symbol is valid behind it when it is advanced. -/
theorem advance (h : i.IsValidFor g form) {x : Symbol} (hnext : i.next? g = some x) :
    i.advance.IsValidFor g (form ++ [x]) := by
  obtain ⟨r, hr, -, front, hchain, rfl⟩ := h
  rw [Item.next?_eq hr] at hnext
  have hlt : i.marker < r.right.toList.length := (List.getElem?_eq_some_iff.mp hnext).1
  refine ⟨r, hr, hlt, front, hchain, ?_⟩
  rw [marker_advance, List.take_add_one, hnext, List.append_assoc]
  rfl

/-- The chain of a valid item goes on to the nonterminal that it expects. -/
theorem chain (h : i.IsValidFor g form) {n : Nonterminal}
    (hnext : i.next? g = some (.nonterminal n)) : g.Chain form n := by
  obtain ⟨r, hr, -, front, hchain, rfl⟩ := h
  rw [Item.next?_eq hr] at hnext
  obtain ⟨hlt, hget⟩ := List.getElem?_eq_some_iff.mp hnext
  have hbody : r.right.toList =
      r.right.toList.take i.marker ++ .nonterminal n :: r.right.toList.drop (i.marker + 1) := by
    rw [← hget, ← List.drop_eq_getElem_cons hlt, List.take_append_drop]
  exact hchain.rule (Grammar.mem_rules_of_rule? hr) hbody

/-- At the end of a chain the initial items are valid. -/
theorem of_chain {n : Nonterminal} (h : g.Chain form n) {rule : Nat} (hrule : rule ∈ g.rulesOf n) :
    (⟨rule, 0⟩ : Item).IsValidFor g form := by
  obtain ⟨r, hr, rfl, -⟩ := Grammar.mem_rulesOf.mp hrule
  refine ⟨r, hr, Nat.zero_le _, form, h, ?_⟩
  rw [List.take_zero, List.append_nil]

/-- **What a closure adds is valid** where the items that are closed are. -/
theorem of_mem_closure (wf : g.WellFormed) {s : ItemSet} (h : ∀ j ∈ s, j.IsValidFor g form)
    (hi : i ∈ s.closure g) : i.IsValidFor g form := by
  rcases ItemSet.mem_closure.mp hi with hi | ⟨hmarker, n, hn, hrule⟩
  · exact h i hi
  · obtain ⟨rule, marker⟩ := i
    obtain rfl : marker = 0 := hmarker
    -- a valid item expects the nonterminal from which the left corners begin
    obtain ⟨m, hm, hpath⟩ := (Grammar.mem_leftCorners wf).mp hn
    obtain ⟨j, hj, hnext⟩ := ItemSet.mem_expectedNonterminals.mp hm
    exact of_chain (((h j hj).chain hnext).corners hpath) hrule

/-- The items behind a symbol are valid for the form with the symbol added. -/
theorem of_mem_goto (wf : g.WellFormed) {s : ItemSet} (h : ∀ j ∈ s, j.IsValidFor g form)
    {x : Symbol} (hi : i ∈ s.goto g x) : i.IsValidFor g (form ++ [x]) := by
  rw [ItemSet.goto_eq] at hi
  refine of_mem_closure wf (fun j hj => ?_) hi
  obtain ⟨k, hk, hnext, rfl⟩ := ItemSet.mem_kernel.mp hj
  exact (h k hk).advance hnext

/-- **A form with a valid item begins a derived form.** -/
theorem exists_derives (wf : g.WellFormed) (h : i.IsValidFor g form) :
    ∃ behind, Derives g.Produces [.nonterminal g.start] (form ++ behind) := by
  obtain ⟨r, hr, -, front, hchain, rfl⟩ := h
  obtain ⟨behind, hderives⟩ := hchain.exists_derives wf (Grammar.mem_rules_of_rule? hr) rfl
  refine ⟨r.right.toList.drop i.marker ++ behind, ?_⟩
  rwa [List.append_assoc, ← List.append_assoc (r.right.toList.take i.marker),
    List.take_append_drop, ← List.append_assoc]

end Item.IsValidFor

namespace Automaton

variable {g : Grammar}

/-! ## Paths -/

namespace Path

variable {stack : List Nat} {symbols : List Symbol}

/-- A path ends in a state. -/
theorem exists_state? (wf : g.WellFormed) (h : (ofGrammar g).Path stack symbols) :
    ∃ s, (ofGrammar g).state? (stack.headD 0) = some s := by
  cases h with
  | start =>
    obtain ⟨s, hs, -⟩ := exists_state?_zero wf
    exact ⟨s, hs⟩
  | edge _ hs hedge =>
    obtain ⟨s', hs', -⟩ := exists_of_mem_edges wf hs hedge
    exact ⟨s', hs'⟩

/-- There is but one path that spells given symbols. -/
theorem unique (wf : g.WellFormed) {stack' : List Nat} (h : (ofGrammar g).Path stack symbols)
    (h' : (ofGrammar g).Path stack' symbols) : stack = stack' := by
  induction h generalizing stack' with
  | start =>
    cases h'
    rfl
  | edge _ hs hedge ih =>
    cases h' with
    | edge h' hs' hedge' =>
      obtain ⟨rfl, rfl⟩ := List.cons.inj (ih h')
      obtain rfl := Option.some.inj (hs.symm.trans hs')
      -- a state has one edge for each symbol
      have hsame := List.inj_on_of_nodup_map (nodup_edges_keys wf hs) hedge hedge' rfl
      rw [(Prod.mk.inj hsame).2]

/-- **The items of a state are valid** for what a path to it spells. -/
theorem isValidFor (wf : g.WellFormed) (h : (ofGrammar g).Path stack symbols) {item : Item}
    (hitem : (ofGrammar g).HasItem (stack.headD 0) item) : item.IsValidFor g symbols.reverse := by
  induction h generalizing item with
  | start =>
    obtain ⟨s, hs, hstart⟩ := exists_state?_zero wf
    have hmem := hitem.mem_items hs
    rw [hstart] at hmem
    refine Item.IsValidFor.of_mem_closure wf (fun j hj => ?_) hmem
    rw [List.mem_singleton.mp (ItemSet.mem_ofList.mp hj)]
    exact .start wf
  | @edge i j below symbols s x _ hs hedge ih =>
    obtain ⟨s', hs', hgoto⟩ := exists_of_mem_edges wf hs hedge
    have hmem := hitem.mem_items hs'
    rw [hgoto] at hmem
    rw [List.reverse_cons]
    exact Item.IsValidFor.of_mem_goto wf (fun before hbefore => ih ⟨s, hs, hbefore⟩) hmem

end Path

/-! ## Forms that lead to a state -/

/-- A path from state `0` that spells the form ends in the state. -/
def Leads (a : Automaton) (form : List Symbol) (i : Nat) : Prop :=
  ∃ below, a.Path (i :: below) form.reverse

namespace Leads

variable {form : List Symbol} {i : Nat}

/-- The empty form leads to state 0. -/
theorem start {a : Automaton} : a.Leads [] 0 := ⟨[], .start⟩

/-- The symbol that an item expects leads on to a state with the item advanced. -/
theorem advance (wf : g.WellFormed) (h : (ofGrammar g).Leads form i) {item : Item}
    (hitem : (ofGrammar g).HasItem i item) {x : Symbol} (hnext : item.next? g = some x) :
    ∃ j, (ofGrammar g).Leads (form ++ [x]) j ∧ (ofGrammar g).HasItem j item.advance := by
  obtain ⟨below, hpath⟩ := h
  obtain ⟨s, j, hs, hedge, hadvance⟩ := hitem.advance wf hnext
  refine ⟨j, ⟨i :: below, ?_⟩, hadvance⟩
  rw [List.reverse_concat]
  exact hpath.edge hs hedge

/-- The body of a rule leads from its initial item to the others. -/
theorem exists_of_initial (wf : g.WellFormed) (h : (ofGrammar g).Leads form i) {rule : Nat} {r : Rule}
    (hr : g.rule? rule = some r) (hitem : (ofGrammar g).HasItem i ⟨rule, 0⟩) {marker : Nat}
    (hle : marker ≤ r.right.size) :
    ∃ j, (ofGrammar g).Leads (form ++ r.right.toList.take marker) j ∧
      (ofGrammar g).HasItem j ⟨rule, marker⟩ := by
  induction marker with
  | zero =>
    refine ⟨i, ?_, hitem⟩
    rwa [List.take_zero, List.append_nil]
  | succ marker ih =>
    obtain ⟨j, hj, hread⟩ := ih (Nat.le_of_lt hle)
    have hget : r.right.toList[marker]? = some r.right.toList[marker] :=
      List.getElem?_eq_getElem hle
    have hnext : (⟨rule, marker⟩ : Item).next? g = some r.right.toList[marker] :=
      (Item.next?_eq hr).trans hget
    obtain ⟨k, hk, hadvance⟩ := hj.advance wf hread hnext
    refine ⟨k, ?_, hadvance⟩
    rw [List.take_add_one, hget, ← List.append_assoc]
    exact hk

end Leads

/-- **A chain can be followed** to a state that has the initial items of its end. -/
theorem exists_leads_of_chain (wf : g.WellFormed) {front : List Symbol} {n : Nonterminal}
    (h : g.Chain front n) :
    ∃ i, (ofGrammar g).Leads front i ∧ ∀ rule ∈ g.rulesOf n, (ofGrammar g).HasItem i ⟨rule, 0⟩ := by
  induction h with
  | start =>
    refine ⟨0, .start, fun rule hrule => ?_⟩
    obtain ⟨r, hr, hleft, -⟩ := Grammar.mem_rulesOf.mp hrule
    rw [wf.eq_zero_of_left hr hleft]
    exact .start wf
  | @rule front before behind n r _ hr hbody ih =>
    obtain ⟨i, hi, hinitial⟩ := ih
    -- the copy of the rule that is used in items is followed up to the nonterminal
    obtain ⟨copy, hcopy, hget⟩ := Grammar.exists_mem_rulesOf hr
    have hle : before.length ≤ r.right.size := by
      rw [← Array.length_toList, hbody, List.length_append]
      omega
    obtain ⟨j, hj, hitem⟩ := hi.exists_of_initial wf hget (hinitial copy hcopy) hle
    have hnext : (⟨copy, before.length⟩ : Item).next? g = some (.nonterminal n) := by
      rw [Item.next?_eq hget, hbody, List.getElem?_append_right le_rfl, Nat.sub_self]
      rfl
    rw [hbody, List.take_left] at hj
    exact ⟨j, hj, fun rule hrule => hitem.initial wf hnext hrule⟩

/-- An item of a rule without a later copy is in the state that a form leads to when it is valid. -/
theorem exists_leads_of_isValidFor (wf : g.WellFormed) {form : List Symbol} {item : Item}
    (h : item.IsValidFor g form) (hlater : g.isSuperseded item.rule = false) :
    ∃ i, (ofGrammar g).Leads form i ∧ (ofGrammar g).HasItem i item := by
  obtain ⟨r, hr, hle, front, hchain, rfl⟩ := h
  obtain ⟨i, hi, hinitial⟩ := exists_leads_of_chain wf hchain
  have hrule : item.rule ∈ g.rulesOf r.left := Grammar.mem_rulesOf.mpr ⟨r, hr, rfl, hlater⟩
  exact hi.exists_of_initial wf hr (hinitial _ hrule) hle

/-! ## Recognition -/

/-- The automaton recognises the forms with valid items, and its states have just these. -/
structure RecognisesValidItems (a : Automaton) (g : Grammar) : Prop where
  /-- the forms that lead to a state are those for which an item is valid -/
  exists_leads_iff : ∀ form, (∃ i, a.Leads form i) ↔ ∃ item, Item.IsValidFor g form item
  /-- a form leads to one state at most -/
  unique : ∀ form i j, a.Leads form i → a.Leads form j → i = j
  /-- of the items of rules without a later copy, that state has those that are valid -/
  mem_items_iff : ∀ form i, a.Leads form i → ∃ s, a.state? i = some s ∧
    ∀ item, g.isSuperseded item.rule = false → (item ∈ s.items ↔ item.IsValidFor g form)
  /-- no state has an item of a rule with a later copy -/
  not_superseded : ∀ i s, a.state? i = some s → ∀ item ∈ s.items, g.isSuperseded item.rule = false

/-- **The automaton of a grammar recognises the viable prefixes with their valid items.** With no more than
`2 ^ 32` states, the numbers are those that a counter of `32` bits hands out
(`Assembly.HoldsAutomaton`). -/
theorem recognisesValidItems {defs : List RuleDef} {g : Grammar}
    (h : Grammar.augment defs = .ok g) : (ofGrammar g).RecognisesValidItems g := by
  have wf := Grammar.wellFormed_of_augment h
  have hunique (form : List Symbol) (i j : Nat) (hi : (ofGrammar g).Leads form i)
      (hj : (ofGrammar g).Leads form j) : i = j := by
    obtain ⟨below, hi⟩ := hi
    obtain ⟨below', hj⟩ := hj
    exact (List.cons.inj (hi.unique wf hj)).1
  constructor
  case exists_leads_iff =>
    intro form
    constructor
    · rintro ⟨i, below, hpath⟩
      -- no state is empty
      obtain ⟨s, hs⟩ := hpath.exists_state? wf
      obtain ⟨item, hitem⟩ := exists_mem_items wf hs
      have hvalid := hpath.isValidFor wf ⟨s, hs, hitem⟩
      rw [List.reverse_reverse] at hvalid
      exact ⟨item, hvalid⟩
    · rintro ⟨item, r, hr, hle, front, hchain, rfl⟩
      -- the rule of the item may have a later copy, which has the same body
      obtain ⟨i, hi, hinitial⟩ := exists_leads_of_chain wf hchain
      obtain ⟨copy, hcopy, hget⟩ := Grammar.exists_mem_rulesOf (Grammar.mem_rules_of_rule? hr)
      obtain ⟨j, hj, -⟩ := hi.exists_of_initial wf hget (hinitial copy hcopy) hle
      exact ⟨j, hj⟩
  case unique => exact hunique
  case mem_items_iff =>
    intro form i hi
    obtain ⟨below, hpath⟩ := hi
    obtain ⟨s, hs⟩ := hpath.exists_state? wf
    refine ⟨s, hs, fun item hlater => ?_⟩
    constructor
    · intro hitem
      have hvalid := hpath.isValidFor wf ⟨s, hs, hitem⟩
      rwa [List.reverse_reverse] at hvalid
    · intro hvalid
      obtain ⟨j, hj, hitem⟩ := exists_leads_of_isValidFor wf hvalid hlater
      obtain rfl := hunique form i j ⟨below, hpath⟩ hj
      exact hitem.mem_items hs
  case not_superseded =>
    intro i s hs item hitem
    have hmem := (mem_itemSets_of_state? wf hs).1
    exact (mem_allItems.mp (mem_allItems_of_mem_itemSets wf _ hmem item hitem)).1

/-- Two terminals lead to a state in which another one may come. It has the last copy of the rule that
ends the word and not the first. -/
theorem recognisesValidItems_starRules : ∃ g, Grammar.augment starRules = .ok g ∧
    (ofGrammar g).RecognisesValidItems g ∧
    ∃ i s, (ofGrammar g).Leads [.terminal ⟨1⟩, .terminal ⟨1⟩] i ∧ (ofGrammar g).state? i = some s ∧
      ⟨1, 0⟩ ∈ s.items ∧ ⟨1, 1⟩ ∈ s.items ∧ ⟨3, 0⟩ ∈ s.items ∧ ⟨2, 0⟩ ∉ s.items := by
  obtain ⟨t, ht, hsame, -⟩ := exists_starTables
  obtain ⟨g, hg, rfl⟩ := Tables.ofRules_eq_ok.mp ht
  have hsame : g.SameNumbers (.ofDefs starRules) := hsame
  have hrecognises := recognisesValidItems hg
  have hrule {k : Nat} {r : Rule} (h : (Grammar.ofDefs starRules).rule? k = some r) : g.rule? k = some r := by
    rwa [hsame.rule?]
  have hmem {k : Nat} {r : Rule} (h : (Grammar.ofDefs starRules).rule? k = some r) : r ∈ g.rules.toList :=
    Grammar.mem_rules_of_rule? (hrule h)
  have hlater (k : Nat) : g.isSuperseded k = (Grammar.ofDefs starRules).isSuperseded k := by
    rw [hsame.isSuperseded]
  -- the start symbol, and then one terminal after the other
  have hchain₀ : g.Chain [] ⟨1⟩ := Grammar.Chain.start.rule (hmem (k := 0) rfl) rfl
  have hchain₁ : g.Chain [.terminal ⟨1⟩] ⟨1⟩ := hchain₀.rule (hmem (k := 1) rfl) rfl
  have hchain₂ : g.Chain [.terminal ⟨1⟩, .terminal ⟨1⟩] ⟨1⟩ := hchain₁.rule (hmem (k := 1) rfl) rfl
  have hread : (⟨1, 1⟩ : Item).IsValidFor g [.terminal ⟨1⟩, .terminal ⟨1⟩] :=
    ⟨starStep, hrule rfl, by decide, _, hchain₁, rfl⟩
  obtain ⟨i, hi⟩ := (hrecognises.exists_leads_iff _).mpr ⟨_, hread⟩
  obtain ⟨s, hs, hitems⟩ := hrecognises.mem_items_iff _ i hi
  have hinitial {k : Nat} {r : Rule} (h : (Grammar.ofDefs starRules).rule? k = some r) (hleft : r.left = ⟨1⟩)
      (hlast : (Grammar.ofDefs starRules).isSuperseded k = false) : ⟨k, 0⟩ ∈ s.items := by
    have hused := (hlater k).trans hlast
    refine (hitems _ hused).mpr (.of_chain hchain₂ ?_)
    exact Grammar.mem_rulesOf.mpr ⟨r, hrule h, hleft, hused⟩
  refine ⟨g, hg, hrecognises, i, s, hi, hs, hinitial rfl rfl rfl, (hitems _ (hlater 1)).mpr hread,
    hinitial rfl rfl rfl, fun hcopy => ?_⟩
  -- no item of the first copy is used
  have hnot := hrecognises.not_superseded i s hs _ hcopy
  rw [hlater 2] at hnot
  cases hnot

end Automaton

end ShiftReduce
