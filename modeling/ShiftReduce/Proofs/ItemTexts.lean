import ShiftReduce.Proofs.LastCopies
import ShiftReduce.Proofs.SheetRows
import ShiftReduce.Proofs.SymbolNames

/-! # Texts of items

An item is written as the words of its rule with a dot among them (`Item.ruleText_eq`), and nothing tells
where a word ends but the space behind it. Words without spaces are told by the text
(`eq_of_intercalate_eq`), and so is the place of the dot when no other word is one
(`RuleDef.dotted_inj`). So items whose rules have terminals with plain names are told by their texts
(`Tables.itemTextsTell`). Terminals may have other names, however, and then a state may have the same text
twice (`Tables.exists_repeated_texts`). -/

namespace ShiftReduce

/-! ## Words -/

/-- A name is a single word other than the dot. -/
def IsPlain (name : String) : Prop := ' ' ∉ name.toList ∧ name ≠ "."

instance : DecidablePred IsPlain := fun name =>
  inferInstanceAs (Decidable (' ' ∉ name.toList ∧ name ≠ "."))

/-- **Words are told by the text that they make with spaces between them.** -/
theorem eq_of_intercalate_eq {l m : List String} (hl : l ≠ []) (hm : m ≠ [])
    (hlwords : ∀ w ∈ l, ' ' ∉ w.toList) (hmwords : ∀ w ∈ m, ' ' ∉ w.toList)
    (h : " ".intercalate l = " ".intercalate m) : l = m := by
  have hsplit {l : List String} (hl : l ≠ []) (hwords : ∀ w ∈ l, ' ' ∉ w.toList) :
      (" ".intercalate l).toList.splitOn ' ' = l.map String.toList := by
    rw [String.toList_intercalate]
    exact List.splitOn_intercalate ' ' (by simpa using hwords) (by simpa using hl)
  refine List.map_injective_iff.mpr (fun _ _ => String.toList_inj.mp) ?_
  rw [← hsplit hl hlwords, ← hsplit hm hmwords, h]

/-- The words of a written rule with a dot at a marker. -/
def RuleDef.dotted (d : RuleDef) (marker : Nat) : List String :=
  d.head :: "->" :: d.body.take marker ++ "." :: d.body.drop marker

/-- The words of an item are at least one: the dot. -/
theorem RuleDef.dotted_ne_nil (d : RuleDef) (marker : Nat) : d.dotted marker ≠ [] := by
  simp [dotted]

/-- **A rule and the place of the dot are told by the words,** when the dot is none of those in the
body. -/
theorem RuleDef.dotted_inj {d d' : RuleDef} {marker marker' : Nat} (hdot : "." ∉ d.body)
    (hle : marker ≤ d.body.length) (hle' : marker' ≤ d'.body.length)
    (h : d.dotted marker = d'.dotted marker') : d = d' ∧ marker = marker' := by
  obtain ⟨head, body⟩ := d
  obtain ⟨head', body'⟩ := d'
  unfold dotted at h
  obtain ⟨rfl, -, hbody⟩ : head = head' ∧ "->" = "->" ∧ body.take marker ++ "." :: body.drop marker =
      body'.take marker' ++ "." :: body'.drop marker' := by simpa using h
  have hbefore : "." ∉ body.take marker := fun hmem => hdot (List.mem_of_mem_take hmem)
  have hbehind : "." ∉ body.drop marker := fun hmem => hdot (List.mem_of_mem_drop hmem)
  obtain ⟨htake, -, hdrop⟩ := (List.append_cons_inj_of_notMem hbefore hbehind).mp hbody
  constructor
  · rw [← List.take_append_drop marker body, htake, hdrop, List.take_append_drop]
  · have hlength := congrArg List.length htake
    rwa [List.length_take_of_le hle, List.length_take_of_le hle'] at hlength

/-- Lists with the same images are the same when those of their members tell these. -/
theorem eq_of_map_eq_map {α β : Type} {f : α → β} {l m : List α}
    (h : ∀ a ∈ l, ∀ b ∈ m, f a = f b → a = b) (heq : l.map f = m.map f) : l = m := by
  induction l generalizing m with
  | nil => exact (List.map_eq_nil_iff.mp heq.symm).symm
  | cons a l ih =>
    cases m with
    | nil => cases heq
    | cons b m =>
      obtain ⟨hab, hlm⟩ := List.cons.inj heq
      have htail := ih (fun c hc d hd => h c (List.mem_cons_of_mem _ hc) d (List.mem_cons_of_mem _ hd)) hlm
      rw [h a (List.mem_cons_self ..) b (List.mem_cons_self ..) hab, htail]

/-- A capital letter is a plain name. -/
theorem isPlain_of_isNonterminalName {name : String} (h : isNonterminalName name = true) :
    IsPlain name := by
  unfold isNonterminalName at h
  split at h
  · next c hc =>
    constructor
    · rw [hc, List.mem_singleton]
      rintro rfl
      cases h
    · rintro rfl
      obtain rfl : '.' = c := (List.cons.inj hc).1
      cases h
  · cases h

/-- Primes put no blank into a name. -/
theorem space_not_mem_primed {name : String} (h : ' ' ∉ name.toList) (k : Nat) :
    ' ' ∉ (primed name k).toList := by
  unfold primed
  simp [String.toList_join, h]

/-! ## Texts of rules -/

/-- An item is written as the words of its rule with a dot among them. -/
theorem Item.ruleText_eq (g : Grammar) (r : Rule) (marker : Nat) :
    Item.ruleText g r marker = " ".intercalate ((g.written r).dotted marker) := rfl

namespace Grammar

/-- The terminals in the body of a rule have plain names. -/
def HasPlainNames (g : Grammar) (r : Rule) : Prop :=
  ∀ x, .terminal x ∈ r.right.toList → IsPlain (g.terminalName x)

namespace IsAugmentation

variable {g : Grammar} {defs : List RuleDef} {r r' : Rule}

/-- The heads of rules are nonterminals. -/
theorem left_mem_allNonterminals (h : g.IsAugmentation defs) (hr : r ∈ g.rules.toList) :
    r.left ∈ g.allNonterminals := by
  have wf := h.wellFormed
  refine mem_allNonterminals.mpr ?_
  rcases wf.eq_or_mem_inputRules hr with rfl | hinput
  · exact Nat.zero_lt_of_lt wf.hasSymbol_start.2
  · exact (wf.hasSymbol_left r hinput).2

/-- The names of nonterminals are single words, primed or not. -/
theorem space_not_mem_nonterminalName (h : g.IsAugmentation defs) {n : Nonterminal}
    (hn : n ∈ g.allNonterminals) : ' ' ∉ (g.nonterminalName n).toList := by
  by_cases hfresh : n = .freshStart
  · obtain ⟨first, rest, rfl⟩ := List.exists_cons_of_ne_nil h.nonempty
    obtain ⟨k, -, -, hname⟩ := isLeast_freshName (namesOf (first :: rest)) first.head
    have hhead := isPlain_of_isNonterminalName (h.valid first (List.mem_cons_self ..)).1
    have hstart : startName (first :: rest) = primed first.head k := hname
    rw [hfresh, h.nonterminalName_freshStart, hstart]
    exact space_not_mem_primed hhead.1 k
  · exact (isPlain_of_isNonterminalName (h.isNonterminalName_nonterminalName hn hfresh)).1

/-- When the terminals in a body have plain names, all symbols do. -/
theorem isPlain_of_mem_body (h : g.IsAugmentation defs) (hr : r ∈ g.rules.toList)
    (hplain : g.HasPlainNames r) : ∀ name ∈ (g.written r).body, IsPlain name := by
  intro name hname
  obtain ⟨x, hx, rfl⟩ := List.mem_map.mp hname
  cases x with
  | terminal x => exact hplain x hx
  | nonterminal n =>
    have hsymbol := h.wellFormed.hasSymbol_of_mem hr hx
    exact isPlain_of_isNonterminalName
      (h.isNonterminalName_nonterminalName (mem_allNonterminals.mpr hsymbol.2) hsymbol.1)

/-- Then a rule with a dot is written in words without spaces. -/
theorem space_not_mem_dotted (h : g.IsAugmentation defs) (hr : r ∈ g.rules.toList)
    (hplain : g.HasPlainNames r) (marker : Nat) :
    ∀ w ∈ (g.written r).dotted marker, ' ' ∉ w.toList := by
  have hbody := h.isPlain_of_mem_body hr hplain
  intro w hw
  simp only [RuleDef.dotted, List.cons_append, List.mem_cons, List.mem_append] at hw
  rcases hw with rfl | rfl | hw | rfl | hw
  · exact h.space_not_mem_nonterminalName (h.left_mem_allNonterminals hr)
  · decide
  · exact (hbody w (List.mem_of_mem_take hw)).1
  · decide
  · exact (hbody w (List.mem_of_mem_drop hw)).1

/-- Rules that are written in the same way are the same. -/
theorem eq_of_written_eq (h : g.IsAugmentation defs) (hr : r ∈ g.rules.toList)
    (hr' : r' ∈ g.rules.toList) (heq : g.written r = g.written r') : r = r' := by
  obtain ⟨left, right⟩ := r
  obtain ⟨left', right'⟩ := r'
  have hleft : left = left' := nonterminalName_inj (h.left_mem_allNonterminals hr)
    (h.left_mem_allNonterminals hr') (congrArg RuleDef.head heq)
  have hright : right.toList = right'.toList := by
    refine eq_of_map_eq_map (fun x hx y hy => ?_) (congrArg RuleDef.body heq)
    exact h.symbolName_inj (h.wellFormed.hasSymbol_of_mem hr hx) (h.wellFormed.hasSymbol_of_mem hr' hy)
  rw [hleft, Array.toList_inj.mp hright]

/-- **A rule and the marker are told by the text,** when the terminals have plain names. -/
theorem ruleText_inj (h : g.IsAugmentation defs) (hr : r ∈ g.rules.toList)
    (hr' : r' ∈ g.rules.toList) (hplain : g.HasPlainNames r) (hplain' : g.HasPlainNames r')
    {marker marker' : Nat} (hle : marker ≤ r.right.size) (hle' : marker' ≤ r'.right.size)
    (heq : Item.ruleText g r marker = Item.ruleText g r' marker') : r = r' ∧ marker = marker' := by
  have hwords := eq_of_intercalate_eq (RuleDef.dotted_ne_nil _ _) (RuleDef.dotted_ne_nil _ _)
    (h.space_not_mem_dotted hr hplain marker) (h.space_not_mem_dotted hr' hplain' marker') heq
  have hdot : "." ∉ (g.written r).body := fun hmem => (h.isPlain_of_mem_body hr hplain _ hmem).2 rfl
  obtain ⟨hwritten, hmarker⟩ := RuleDef.dotted_inj hdot (by simpa [written] using hle)
    (by simpa [written] using hle') hwords
  exact ⟨h.eq_of_written_eq hr hr' hwritten, hmarker⟩

end IsAugmentation

end Grammar

/-! ## Texts of items -/

/-- The terminals in the body of the rule of an item have plain names. -/
def Item.HasPlainNames (g : Grammar) (a : Item) : Prop :=
  ∀ r, g.rule? a.rule = some r → g.HasPlainNames r

/-- The item of a written rule is written as that rule with a dot. -/
theorem Grammar.IsAugmentation.text?_eq {g : Grammar} {defs : List RuleDef} (h : g.IsAugmentation defs)
    {k : Nat} {d : RuleDef} (hd : defs[k]? = some d) (marker : Nat) :
    Item.text? g ⟨k + 1, marker⟩ = some (" ".intercalate (d.dotted marker)) := by
  rw [Item.text?, h.rule?_succ, hd, Option.map_some, Option.map_some, Item.ruleText_eq,
    (h.spells_ruleOf (List.mem_of_getElem? hd)).written_eq]

namespace Tables

variable {g : Grammar} {i j : Nat} {s : State}

/-- **An item is told by its text** when the terminals in rules have plain names. -/
theorem eq_of_text?_eq {defs : List RuleDef} (h : g.IsAugmentation defs) {a b : Item}
    (ha : (Automaton.ofGrammar g).HasItem i a) (hb : (Automaton.ofGrammar g).HasItem j b)
    (hplain : a.HasPlainNames g) (hplain' : b.HasPlainNames g) (heq : a.text? g = b.text? g) :
    a = b := by
  have wf := h.wellFormed
  obtain ⟨s, hs, ha⟩ := ha
  obtain ⟨s', hs', hb⟩ := hb
  obtain ⟨r, hr, hle⟩ := Automaton.exists_rule_of_mem_items wf hs ha
  obtain ⟨r', hr', hle'⟩ := Automaton.exists_rule_of_mem_items wf hs' hb
  have htext : Item.ruleText g r a.marker = Item.ruleText g r' b.marker := by
    rw [Item.text?, Item.text?, hr, hr'] at heq
    exact Option.some.inj heq
  obtain ⟨rfl, hmarker⟩ := h.ruleText_inj (Grammar.mem_rules_of_rule? hr)
    (Grammar.mem_rules_of_rule? hr') (hplain r hr) (hplain' r' hr') hle hle' htext
  -- items have the last copies of rules
  obtain ⟨q, huses⟩ := exists_usesRule_of_mem_items wf hs ha
  obtain ⟨q', huses'⟩ := exists_usesRule_of_mem_items wf hs' hb
  obtain rfl := Option.some.inj (hr.symm.trans huses.1)
  obtain rfl := Option.some.inj (hr'.symm.trans huses'.1)
  exact Item.ext_iff.mpr ⟨huses.unique huses', hmarker⟩

/-- The texts of a state are different when they tell its items. -/
theorem nodup_texts_iff (wf : g.WellFormed) (hs : (Automaton.ofGrammar g).state? i = some s) :
    (s.items.items.filterMap (·.text? g)).Nodup ↔
      ∀ a ∈ s.items, ∀ b ∈ s.items, a.text? g = b.text? g → a = b := by
  rw [← List.nodup_map_iff (Option.some_injective _), Sheet.map_some_items wf hs,
    List.nodup_map_iff_inj_on s.items.nodup_items]
  rfl

/-- The texts in a sheet are those of the items. -/
theorem getElem?_states_iff {t : Tables} {texts : List String} :
    (Sheet.ofTables t).states[i]? = some texts ↔ ∃ s, t.automaton.state? i = some s ∧
      s.items.items.filterMap (·.text? t.grammar) = texts := by
  show (t.automaton.states.toList.map _)[i]? = some texts ↔ _
  rw [List.getElem?_map, Array.getElem?_toList, Option.map_eq_some_iff]
  rfl

/-- What the texts of items in some tables tell. -/
structure ItemTextsTell (t : Tables) (defs : List RuleDef) : Prop where
  /-- items of any states with the same text are the same, if their terminals have plain names -/
  eq : ∀ i j a b, t.automaton.HasItem i a → t.automaton.HasItem j b →
    a.HasPlainNames t.grammar → b.HasPlainNames t.grammar →
    a.text? t.grammar = b.text? t.grammar → a = b
  /-- so no text comes twice in a state with such items only -/
  nodup : ∀ i texts, (Sheet.ofTables t).states[i]? = some texts →
    (∀ a, t.automaton.HasItem i a → a.HasPlainNames t.grammar) → texts.Nodup
  /-- nor in any state, if plain names are written only -/
  nodup_of_written : (∀ d ∈ defs, ∀ name ∈ d.body, IsPlain name) →
    ∀ texts ∈ (Sheet.ofTables t).states, texts.Nodup

/-- **Texts tell items apart** when the terminals in their rules have plain names. -/
theorem itemTextsTell {defs : List RuleDef} {t : Tables} (h : ofRules defs = .ok t) :
    t.ItemTextsTell defs := by
  obtain ⟨g, hg, rfl⟩ := ofRules_eq_ok.mp h
  have haug := Grammar.isAugmentation_of_augment hg
  have wf := haug.wellFormed
  have hnodup (i : Nat) (texts : List String)
      (htexts : (Sheet.ofTables (ofGrammar g)).states[i]? = some texts)
      (hplain : ∀ a, (Automaton.ofGrammar g).HasItem i a → a.HasPlainNames g) : texts.Nodup := by
    obtain ⟨s, hs, rfl⟩ := getElem?_states_iff.mp htexts
    refine (nodup_texts_iff wf hs).mpr fun a ha b hb heq => ?_
    exact eq_of_text?_eq haug ⟨s, hs, ha⟩ ⟨s, hs, hb⟩ (hplain a ⟨s, hs, ha⟩) (hplain b ⟨s, hs, hb⟩) heq
  constructor
  case eq => exact fun i j a b ha hb hplain hplain' heq => eq_of_text?_eq haug ha hb hplain hplain' heq
  case nodup => exact hnodup
  case nodup_of_written =>
    intro hwritten texts htexts
    obtain ⟨i, hi⟩ := List.mem_iff_getElem?.mp htexts
    refine hnodup i texts hi fun a _ r hr x hx => ?_
    -- the name of a terminal in a body stands in the body of a written rule
    have hsymbol := wf.hasSymbol_of_mem (Grammar.mem_rules_of_rule? hr) hx
    obtain ⟨d, hd, hname⟩ := haug.isWritten_symbolName hsymbol
    rcases List.mem_cons.mp hname with hhead | hbody
    · have hname : g.terminalName x = d.head := hhead
      rw [hname]
      exact isPlain_of_isNonterminalName (haug.valid d hd).1
    · exact hwritten d hd _ hbody

/-- An item in the list of a state's items is an item of the state. -/
theorem hasItem_of_items {m : Automaton} {items : List Item}
    (h : (m.state? i).map (·.items.items) = some items) {a : Item} (ha : a ∈ items) : m.HasItem i a := by
  obtain ⟨s, hs, rfl⟩ := Option.map_eq_some_iff.mp h
  exact ⟨s, hs, ha⟩

/-- Two items of a state with the same text make it come twice. -/
theorem exists_not_nodup (wf : g.WellFormed) {a b : Item} (ha : (Automaton.ofGrammar g).HasItem i a)
    (hb : (Automaton.ofGrammar g).HasItem i b) (hne : a ≠ b) (heq : a.text? g = b.text? g) :
    ∃ texts, (Sheet.ofTables (ofGrammar g)).states[i]? = some texts ∧ ¬ texts.Nodup := by
  obtain ⟨s, hs, ha⟩ := ha
  refine ⟨_, getElem?_states_iff.mpr ⟨s, hs, rfl⟩, fun hnodup => hne ?_⟩
  exact (nodup_texts_iff wf hs).mp hnodup a ha b (Automaton.HasItem.mem_items hb hs) heq

end Tables

/-! ## Rule lists -/

/-- Terminals that are called like the arrow, and like the item of an empty rule without its spaces. -/
def arrowRules : List RuleDef := [⟨"S", ["->", "S"]⟩, ⟨"S", ["S->."]⟩]

/-- A terminal that is called like the dot, and one that is called like two others with a space. -/
def unclearRules : List RuleDef := [⟨"S", [".", "S"]⟩, ⟨"S", ["a b"]⟩, ⟨"S", ["a", "b"]⟩]

/-- The rules by number. -/
theorem ofDefs_unclearRules : Grammar.ofDefs unclearRules =
    .ofNames ["$", ".", "a b", "a", "b"] ["", "S"] (by decide) (by decide)
      [⟨⟨1⟩, #[.terminal ⟨1⟩, .nonterminal ⟨1⟩]⟩, ⟨⟨1⟩, #[.terminal ⟨2⟩]⟩,
        ⟨⟨1⟩, #[.terminal ⟨3⟩, .terminal ⟨4⟩]⟩] := by rfl

namespace Tables

/-- Names that look like other parts of an item are plain. -/
theorem itemTextsTell_arrowRules : ∃ t, ofRules arrowRules = .ok t ∧ t.ItemTextsTell arrowRules ∧
    ∀ texts ∈ (Sheet.ofTables t).states, texts.Nodup := by
  obtain ⟨g, hg⟩ : ∃ g, Grammar.augment arrowRules = .ok g :=
    Grammar.exists_augment (by decide) (by unfold RuleDef.IsValid; decide) (by decide) (by decide)
  have ht := ofRules_eq_ok.mpr ⟨g, hg, rfl⟩
  have htell := itemTextsTell ht
  exact ⟨.ofGrammar g, ht, htell, htell.nodup_of_written (by decide)⟩

/-- **A state may have the same text twice:** in state `0` through a space in a name, and in state `2`
through a dot. -/
theorem exists_repeated_texts : ∃ t, ofRules unclearRules = .ok t ∧
    (∃ texts, (Sheet.ofTables t).states[0]? = some texts ∧ ¬ texts.Nodup) ∧
    ∃ texts, (Sheet.ofTables t).states[2]? = some texts ∧ ¬ texts.Nodup := by
  obtain ⟨t, ht, -, hautomaton, -⟩ := exists_of_valid unclearRules (by decide)
    (by unfold RuleDef.IsValid; decide) (by decide) (by decide)
  obtain ⟨g, hg, rfl⟩ := ofRules_eq_ok.mp ht
  rw [ofDefs_unclearRules] at hautomaton
  have haug := Grammar.isAugmentation_of_augment hg
  have hitems : ((ofGrammar g).automaton.state? 0).map (·.items.items) =
      some [⟨0, 0⟩, ⟨1, 0⟩, ⟨2, 0⟩, ⟨3, 0⟩] := by
    rw [hautomaton]
    cbv
  have hitems' : ((ofGrammar g).automaton.state? 2).map (·.items.items) =
      some [⟨1, 0⟩, ⟨1, 1⟩, ⟨2, 0⟩, ⟨3, 0⟩] := by
    rw [hautomaton]
    cbv
  have hspace : Item.text? g ⟨2, 0⟩ = Item.text? g ⟨3, 0⟩ := by
    rw [haug.text?_eq (k := 1) rfl, haug.text?_eq (k := 2) rfl]
    decide
  have hdot : Item.text? g ⟨1, 0⟩ = Item.text? g ⟨1, 1⟩ := by
    rw [haug.text?_eq (k := 0) rfl, haug.text?_eq (k := 0) rfl]
    decide
  refine ⟨.ofGrammar g, ht, ?_, ?_⟩
  · exact exists_not_nodup haug.wellFormed (hasItem_of_items hitems (by decide))
      (hasItem_of_items hitems (by decide)) (by decide) hspace
  · exact exists_not_nodup haug.wellFormed (hasItem_of_items hitems' (by decide))
      (hasItem_of_items hitems' (by decide)) (by decide) hdot

end Tables

end ShiftReduce
