import ShiftReduce.Augment
import ShiftReduce.Proofs.Interning

/-! # What augmenting a rule list gives

The numbering of an accepted rule list in closed form. `Draft.intern` registers a name and forgets about
capacities; reading a body is registering its names one after the other, and the symbols it gives are the
places of the names in the lists of all names (`symbolOf`), also when more names come later. So the rules
of the augmented grammar are the rules of the list with names replaced by places (`ruleOf`), and the
lists of names are those of first appearances.

* `Grammar.IsAugmentation g defs`: `g` is this closed form of `defs`;
* `Grammar.isAugmentation_of_augment`: what `Grammar.augment` gives is the closed form;
* `Grammar.exists_augment`: a list of valid rules within the capacities is accepted;
* `Grammar.WellFormed g`: what the later stages need to know of `g`. -/

namespace ShiftReduce

/-! ## Symbols and rules by the places of their names -/

/-- The symbol that a name is, when the names of both classes are listed in the order of numbers. -/
def symbolOf (terminals nonterminals : List String) (name : String) : Symbol :=
  if isNonterminalName name then .nonterminal ⟨nonterminals.idxOf name⟩
  else .terminal ⟨terminals.idxOf name⟩

/-- The rule that a written rule is, when the names of both classes are listed. -/
def ruleOf (terminals nonterminals : List String) (d : RuleDef) : Rule :=
  ⟨⟨nonterminals.idxOf d.head⟩, (d.body.map (symbolOf terminals nonterminals)).toArray⟩

/-- Longer lists of names give the same symbol for a name that the shorter ones have. -/
theorem symbolOf_eq_of_isPrefix {T T' N N' : List String} (hT : T <+: T') (hN : N <+: N')
    {name : String} (hterminal : isNonterminalName name = false → name ∈ T)
    (hnonterminal : isNonterminalName name = true → name ∈ N) :
    symbolOf T' N' name = symbolOf T N name := by
  unfold symbolOf
  cases hname : isNonterminalName name with
  | true => rw [if_pos rfl, if_pos rfl, idxOf_eq_of_isPrefix hN (hnonterminal hname)]
  | false => rw [if_neg Bool.false_ne_true, if_neg Bool.false_ne_true,
      idxOf_eq_of_isPrefix hT (hterminal hname)]

/-! ## Reading a body -/

namespace Draft

/-- A draft with one more name registered, whatever room there is. -/
def intern (d : Draft) (name : String) : Draft :=
  if isNonterminalName name then { d with nonterminals := (d.nonterminals.intern name).2 }
  else { d with terminals := (d.terminals.intern name).2 }

/-- A draft with more names registered, one after the other. -/
def internAll (d : Draft) (names : List String) : Draft := names.foldl intern d

/-- The symbol that a name is in a draft. -/
def symbolOf (d : Draft) (name : String) : Symbol :=
  ShiftReduce.symbolOf d.terminals.toList d.nonterminals.toList name

/-- No names leave a draft as it is. -/
@[simp] theorem internAll_nil (d : Draft) : d.internAll [] = d := rfl

/-- Names are numbered one after the other. -/
@[simp] theorem internAll_cons (d : Draft) (name : String) (names : List String) :
    d.internAll (name :: names) = (d.intern name).internAll names := rfl

/-- Numbering a name adds no rule. -/
@[simp] theorem rules_intern (d : Draft) (name : String) : (d.intern name).rules = d.rules := by
  unfold intern
  split <;> rfl

/-- Numbering names adds no rule. -/
@[simp] theorem rules_internAll (d : Draft) (names : List String) :
    (d.internAll names).rules = d.rules := by
  induction names generalizing d with
  | nil => rfl
  | cons name names ih => rw [internAll_cons, ih, rules_intern]

/-- Registering a name keeps the lists of first appearances. -/
theorem terminals_intern {d : Draft} {T : List String} (h : d.terminals.toList = T.eraseDups)
    (name : String) :
    (d.intern name).terminals.toList = (T ++ [name].filter isTerminalName).eraseDups := by
  unfold intern
  cases hname : isNonterminalName name with
  | true => simpa [isTerminalName, hname] using h
  | false =>
    simpa [isTerminalName, hname] using Numbering.toList_intern_eraseDups h name

/-- The same for the names of the other class. -/
theorem nonterminals_intern {d : Draft} {N : List String}
    (h : d.nonterminals.toList = N.eraseDups) (name : String) :
    (d.intern name).nonterminals.toList =
      (N ++ [name].filter isNonterminalName).eraseDups := by
  unfold intern
  cases hname : isNonterminalName name with
  | true => simpa [hname] using Numbering.toList_intern_eraseDups h name
  | false => simpa [hname] using h

/-- Names that are terminals are numbered in the order of their first places. -/
theorem terminals_internAll {d : Draft} {T : List String} (h : d.terminals.toList = T.eraseDups)
    (names : List String) :
    (d.internAll names).terminals.toList = (T ++ names.filter isTerminalName).eraseDups := by
  induction names generalizing d T with
  | nil => simpa using h
  | cons name names ih =>
    rw [internAll_cons, ih (terminals_intern h name), List.append_assoc, ← List.filter_append,
      List.singleton_append]

/-- Names that are nonterminals are numbered in the order of their first places. -/
theorem nonterminals_internAll {d : Draft} {N : List String}
    (h : d.nonterminals.toList = N.eraseDups) (names : List String) :
    (d.internAll names).nonterminals.toList =
      (N ++ names.filter isNonterminalName).eraseDups := by
  induction names generalizing d N with
  | nil => simpa using h
  | cons name names ih =>
    rw [internAll_cons, ih (nonterminals_intern h name), List.append_assoc, ← List.filter_append,
      List.singleton_append]

/-- Names keep their places when more names are registered. -/
theorem terminals_prefix_internAll (d : Draft) (names : List String) :
    d.terminals.toList <+: (d.internAll names).terminals.toList := by
  have hself := d.terminals.toList_eq_eraseDups
  rw [terminals_internAll hself]
  conv_lhs => rw [hself]
  exact eraseDups_prefix_append _ _

/-- Numbering more names moves no nonterminal. -/
theorem nonterminals_prefix_internAll (d : Draft) (names : List String) :
    d.nonterminals.toList <+: (d.internAll names).nonterminals.toList := by
  have hself := d.nonterminals.toList_eq_eraseDups
  rw [nonterminals_internAll hself]
  conv_lhs => rw [hself]
  exact eraseDups_prefix_append _ _

/-- There are no fewer terminals when more names are registered. -/
theorem size_terminals_le_internAll (d : Draft) (names : List String) :
    d.terminals.size ≤ (d.internAll names).terminals.size := by
  rw [← Numbering.length_toList, ← Numbering.length_toList]
  exact (terminals_prefix_internAll d names).length_le

/-- A registered name is listed in its class. -/
theorem mem_terminals_intern (d : Draft) {name : String} (h : isNonterminalName name = false) :
    name ∈ (d.intern name).terminals.toList := by
  have hself := d.terminals.toList_eq_eraseDups
  rw [terminals_intern hself, List.mem_eraseDups]
  simp [isTerminalName, h]

/-- A nonterminal's name has a number once it is numbered. -/
theorem mem_nonterminals_intern (d : Draft) {name : String} (h : isNonterminalName name = true) :
    name ∈ (d.intern name).nonterminals.toList := by
  have hself := d.nonterminals.toList_eq_eraseDups
  rw [nonterminals_intern hself, List.mem_eraseDups]
  simp [h]

/-- A registered name stays the same symbol when more names come. -/
theorem symbolOf_internAll_intern (d : Draft) (name : String) (names : List String) :
    ((d.intern name).internAll names).symbolOf name = (d.intern name).symbolOf name :=
  symbolOf_eq_of_isPrefix (terminals_prefix_internAll _ _) (nonterminals_prefix_internAll _ _)
    (mem_terminals_intern d) (mem_nonterminals_intern d)

/-- The symbol with a name is its place, if there is room for one more terminal. -/
theorem symbol_eq {d : Draft} (room : d.terminals.size ≤ capacity + 1) (name : String) :
    d.symbol name =
      if (d.intern name).terminals.size ≤ capacity + 1
      then .ok ((d.intern name).symbolOf name, d.intern name)
      else .error (.tooMany .terminals) := by
  obtain ⟨terminals, nonterminals, rules⟩ := d
  unfold symbol intern symbolOf ShiftReduce.symbolOf
  cases hname : isNonterminalName name with
  -- nonterminals always find room
  | true =>
    simp only [if_true]
    rw [if_pos room, ← Numbering.intern_fst]
  | false =>
    simp only [Bool.false_eq_true, if_false]
    have hfst := Numbering.intern_fst terminals name
    rw [← hfst]
    -- the number is within the capacity exactly when the list behind it is
    have hnumber : (terminals.intern name).1 ≤ capacity ↔
        (terminals.intern name).2.size ≤ capacity + 1 := by
      have hlen := Numbering.length_toList (terminals.intern name).2
      rw [Numbering.toList_intern] at hlen
      rw [hfst, Numbering.toList_intern]
      split at hlen
      · next hmem =>
        rw [if_pos hmem]
        have hlt := List.idxOf_lt_length_of_mem hmem
        simp only [Numbering.length_toList] at hlen hlt room ⊢
        omega
      · next hmem =>
        rw [if_neg hmem, List.idxOf_append_of_notMem hmem]
        simp only [List.length_append, List.length_singleton, Numbering.length_toList,
          List.idxOf_cons_self] at hlen ⊢
        omega
    by_cases hle : (terminals.intern name).1 ≤ capacity
    · rw [if_pos hle, if_pos (hnumber.mp hle)]
    · rw [if_neg hle, if_neg fun h => hle (hnumber.mpr h)]

/-- The symbols with the names in a body are their places, if there is room for all terminals. -/
theorem symbols_eq {d : Draft} (room : d.terminals.size ≤ capacity + 1) (before : Array Symbol)
    (names : List String) :
    d.symbols before names =
      if (d.internAll names).terminals.size ≤ capacity + 1
      then .ok (before ++ (names.map (d.internAll names).symbolOf).toArray, d.internAll names)
      else .error (.tooMany .terminals) := by
  induction names generalizing d before with
  | nil => simp [symbols, room]
  | cons name names ih =>
    rw [symbols, symbol_eq room, internAll_cons]
    by_cases hfirst : (d.intern name).terminals.size ≤ capacity + 1
    · rw [if_pos hfirst]
      simp only
      rw [ih hfirst, List.map_cons, symbolOf_internAll_intern, List.toArray_cons,
        ← Array.append_assoc, Array.append_singleton]
    -- a name without room leaves no room for the whole body
    · have hall : ¬ ((d.intern name).internAll names).terminals.size ≤ capacity + 1 := fun h =>
        hfirst (Nat.le_trans (size_terminals_le_internAll _ names) h)
      rw [if_neg hfirst, if_neg hall]

/-! ## Reading the rules -/

/-- The rule that a written rule is in a draft. -/
def ruleOf (d : Draft) (r : RuleDef) : Rule :=
  ShiftReduce.ruleOf d.terminals.toList d.nonterminals.toList r

/-- The names in a body are listed after they are registered. -/
theorem mem_terminals_internAll (d : Draft) {names : List String} {name : String}
    (hmem : name ∈ names) (h : isNonterminalName name = false) :
    name ∈ (d.internAll names).terminals.toList := by
  rw [terminals_internAll d.terminals.toList_eq_eraseDups, List.mem_eraseDups]
  exact List.mem_append_right _ (List.mem_filter.mpr ⟨hmem, by simp [isTerminalName, h]⟩)

/-- Each of the nonterminals' names has a number once they are all numbered. -/
theorem mem_nonterminals_internAll (d : Draft) {names : List String} {name : String}
    (hmem : name ∈ names) (h : isNonterminalName name = true) :
    name ∈ (d.internAll names).nonterminals.toList := by
  rw [nonterminals_internAll d.nonterminals.toList_eq_eraseDups, List.mem_eraseDups]
  exact List.mem_append_right _ (List.mem_filter.mpr ⟨hmem, h⟩)

/-- A rule that was read stays the same rule when more names come. -/
theorem ruleOf_eq_of_isPrefix {d e : Draft} {r : RuleDef}
    (hT : (d.internAll r.body).terminals.toList <+: e.terminals.toList)
    (hN : (d.internAll r.body).nonterminals.toList <+: e.nonterminals.toList)
    (hhead : r.head ∈ d.nonterminals.toList) :
    e.ruleOf r = (d.internAll r.body).ruleOf r := by
  have hhead' := (nonterminals_prefix_internAll d r.body).subset hhead
  unfold ruleOf ShiftReduce.ruleOf
  rw [idxOf_eq_of_isPrefix hN hhead']
  congr 2
  refine List.map_congr_left fun name hname => ?_
  exact symbolOf_eq_of_isPrefix hT hN (mem_terminals_internAll d hname)
    (mem_nonterminals_internAll d hname)

/-- A rule whose head is registered is read by registering the names in its body, if there is room
for their terminals and for the rule. -/
theorem addRule_eq {d : Draft} (room : d.terminals.size ≤ capacity + 1) {r : RuleDef}
    (hhead : r.head ∈ d.nonterminals.toList) :
    d.addRule r =
      if (d.internAll r.body).terminals.size ≤ capacity + 1 then
        if d.rules.size ≤ capacity then
          .ok { d.internAll r.body with rules := d.rules.push ((d.internAll r.body).ruleOf r) }
        else .error (.tooMany .rules)
      else .error (.tooMany .terminals) := by
  unfold addRule
  rw [symbols_eq room]
  split
  · next hsymbols =>
    split at hsymbols
    -- the body has too many terminals
    · cases hsymbols
    · next hfull =>
      cases hsymbols
      rw [if_neg hfull]
  · next right terminals nonterminals rules hsymbols =>
    split at hsymbols
    · next hroom =>
      rw [if_pos hroom]
      -- the head is registered, so interning it again changes nothing
      obtain ⟨hright, hdraft⟩ := Prod.mk.inj (Except.ok.inj hsymbols)
      have hhead' := (nonterminals_prefix_internAll d r.body).subset hhead
      have hrules := rules_internAll d r.body
      rw [hdraft] at hhead' hrules
      obtain ⟨i, hi⟩ := Numbering.mem_toList.mp hhead'
      have hintern := Numbering.intern_of_value? hi
      simp only at hrules
      subst hrules
      simp only [hintern, hdraft, ruleOf, ShiftReduce.ruleOf]
      rw [Numbering.idxOf_of_value? hi, ← hright, hdraft]
      simp only [Array.empty_append]
      rfl
    · cases hsymbols

/-- The lists of a draft after all rules are read, and the rules. -/
theorem addRules_spec {d e : Draft} {T N : List String} {defs : List RuleDef}
    (h : d.addRules defs = .ok e) (room : d.terminals.size ≤ capacity + 1)
    (hT : d.terminals.toList = T.eraseDups) (hN : d.nonterminals.toList = N.eraseDups)
    (hheads : ∀ r ∈ defs, r.head ∈ d.nonterminals.toList) :
    e.terminals.toList = (T ++ defs.flatMap fun r => r.body.filter isTerminalName).eraseDups ∧
    e.nonterminals.toList =
      (N ++ defs.flatMap fun r => r.body.filter isNonterminalName).eraseDups ∧
    e.rules = d.rules ++ (defs.map e.ruleOf).toArray := by
  induction defs generalizing d T N with
  | nil =>
    cases h
    simp [hT, hN]
  | cons r rest ih =>
    have hhead := hheads r (List.mem_cons_self ..)
    rw [addRules, addRule_eq room hhead] at h
    split at h
    · next d' hd' =>
      split at hd'
      · next hroom =>
        split at hd'
        · cases hd'
          have hprefix := nonterminals_prefix_internAll d r.body
          obtain ⟨heT, heN, herules⟩ := ih h hroom (terminals_internAll hT r.body)
            (nonterminals_internAll hN r.body)
            fun r' hr' => hprefix.subset (hheads r' (List.mem_cons_of_mem _ hr'))
          simp only [List.append_assoc] at heT heN
          refine ⟨heT, heN, ?_⟩
          -- the first rule stays what it was when the others are read
          have hrule : e.ruleOf r = (d.internAll r.body).ruleOf r := by
            refine ruleOf_eq_of_isPrefix ?_ ?_ hhead
            · rw [heT, terminals_internAll hT, ← List.append_assoc]
              exact eraseDups_prefix_append _ _
            · rw [heN, nonterminals_internAll hN, ← List.append_assoc]
              exact eraseDups_prefix_append _ _
          rw [herules, List.map_cons, hrule, List.toArray_cons, ← Array.append_assoc,
            Array.append_singleton]
        · cases hd'
      · cases hd'
    · cases h

/-- What is read finds room. -/
theorem size_le_of_addRules {d e : Draft} {defs : List RuleDef} (h : d.addRules defs = .ok e)
    (hT : d.terminals.size ≤ capacity + 1) (hrules : d.rules.size ≤ capacity + 1)
    (hheads : ∀ r ∈ defs, r.head ∈ d.nonterminals.toList) :
    e.terminals.size ≤ capacity + 1 ∧ e.rules.size ≤ capacity + 1 := by
  induction defs generalizing d with
  | nil =>
    cases h
    exact ⟨hT, hrules⟩
  | cons r rest ih =>
    rw [addRules, addRule_eq hT (hheads r (List.mem_cons_self ..))] at h
    split at h
    · next d' hd' =>
      split at hd'
      · next hterminals =>
        split at hd'
        · next hroom =>
          cases hd'
          refine ih h hterminals ?_ fun r' hr' =>
            (nonterminals_prefix_internAll d r.body).subset (hheads r' (List.mem_cons_of_mem _ hr'))
          simp only [Array.size_push]
          omega
        · cases hd'
      · cases hd'
    · cases h

/-- Rules are read when there is room for all their terminals and for all rules. -/
theorem exists_addRules {d : Draft} {T : List String} {defs : List RuleDef}
    (hT : d.terminals.toList = T.eraseDups)
    (room : (T ++ defs.flatMap fun r => r.body.filter isTerminalName).eraseDups.length ≤
      capacity + 1)
    (hrules : d.rules.size + defs.length ≤ capacity + 1)
    (hheads : ∀ r ∈ defs, r.head ∈ d.nonterminals.toList) :
    ∃ e, d.addRules defs = .ok e := by
  induction defs generalizing d T with
  | nil => exact ⟨d, rfl⟩
  | cons r rest ih =>
    rw [List.flatMap_cons, ← List.append_assoc] at room
    have hbody := terminals_internAll hT r.body
    -- the terminals of the first body are among those of all
    have hsize : (d.internAll r.body).terminals.size ≤ capacity + 1 := by
      rw [← Numbering.length_toList, hbody]
      exact Nat.le_trans (eraseDups_prefix_append _ _).length_le room
    have hsize' := Nat.le_trans (size_terminals_le_internAll d r.body) hsize
    rw [List.length_cons] at hrules
    rw [addRules, addRule_eq hsize' (hheads r (List.mem_cons_self ..)), if_pos hsize,
      if_pos (by omega)]
    refine ih hbody room ?_ fun r' hr' => ?_
    · simp only [Array.size_push]
      omega
    · exact (nonterminals_prefix_internAll d r.body).subset (hheads r' (List.mem_cons_of_mem _ hr'))

/-! ## Registering the heads -/

/-- Before any body is read the only terminal is the end of input. -/
@[simp] theorem terminals_ofHeads (fresh : String) (heads : List String) :
    (ofHeads fresh heads).terminals.toList = [endMark].eraseDups :=
  Numbering.toList_intern_eraseDups (l := []) rfl endMark

/-- The fresh start comes first, the heads behind it in the order of their first places. -/
theorem nonterminals_ofHeads (fresh : String) (heads : List String) :
    (ofHeads fresh heads).nonterminals.toList = (fresh :: heads).eraseDups := by
  have grow (t : Numbering String) (l : List String) (h : t.toList = l.eraseDups) :
      (heads.foldl (fun t h => (t.intern h).2) t).toList = (l ++ heads).eraseDups := by
    induction heads generalizing t l with
    | nil => simpa using h
    | cons head heads ih =>
      rw [List.foldl_cons, ih _ _ (Numbering.toList_intern_eraseDups h head), List.append_assoc,
        List.singleton_append]
  exact grow _ [fresh] (Numbering.toList_intern_eraseDups (l := []) rfl fresh)

end Draft

/-! ## The closed form -/

/-- The name that the fresh start symbol of a rule list gets. -/
def startName (defs : List RuleDef) : String :=
  freshName (namesOf defs) ((defs.head?.map (·.head)).getD "")

/-- The names of the terminals that a rule list gets, by their first appearances. -/
def terminalNames (defs : List RuleDef) : List String :=
  (endMark :: defs.flatMap fun r => r.body.filter isTerminalName).eraseDups

/-- The names of the nonterminals that a rule list gets: the fresh one, the heads, and then those that
only stand in bodies. -/
def nonterminalNames (defs : List RuleDef) : List String :=
  (startName defs :: defs.map (·.head) ++
    defs.flatMap fun r => r.body.filter isNonterminalName).eraseDups

/-- The rules that a rule list gets, the one that starts the derivations first. -/
def augmentedRules (defs : List RuleDef) : List Rule :=
  ⟨.freshStart, #[.nonterminal ⟨1⟩]⟩ ::
    defs.map (ruleOf (terminalNames defs) (nonterminalNames defs))

/-- A grammar is the augmentation of a rule list. -/
structure Grammar.IsAugmentation (g : Grammar) (defs : List RuleDef) : Prop where
  /-- there is a rule -/
  nonempty : defs ≠ []
  /-- no rule has a fault -/
  valid : ∀ r ∈ defs, r.IsValid
  /-- the terminals are numbered by first appearance -/
  terminals : g.terminals.toList = terminalNames defs
  /-- the nonterminals are numbered by first appearance, the heads before the others -/
  nonterminals : g.nonterminals.toList = nonterminalNames defs
  /-- the rules keep their order behind the one that starts the derivations -/
  rules : g.rules.toList = augmentedRules defs
  /-- the head of the first rule is the start symbol -/
  start : g.start = ⟨1⟩

/-- The draft that augmenting a rule list begins with. -/
def initialDraft (defs : List RuleDef) : Draft :=
  .ofHeads (startName defs) (defs.map (·.head))

/-- Every head has a number before any body is read. -/
theorem head_mem_initialDraft {defs : List RuleDef} {r : RuleDef} (hr : r ∈ defs) :
    r.head ∈ (initialDraft defs).nonterminals.toList := by
  unfold initialDraft
  rw [Draft.nonterminals_ofHeads, List.mem_eraseDups]
  exact List.mem_cons_of_mem _ (List.mem_map_of_mem hr)

/-- Before any body is read there is one terminal, which fits. -/
theorem size_terminals_initialDraft (defs : List RuleDef) :
    (initialDraft defs).terminals.size ≤ capacity + 1 := by
  unfold initialDraft
  rw [← Numbering.length_toList, Draft.terminals_ofHeads]
  decide

/-- Augmenting a rule list reads valid rules into the draft that it begins with. -/
theorem Grammar.exists_addRules_of_augment {defs : List RuleDef} {g : Grammar}
    (h : Grammar.augment defs = .ok g) :
    defs ≠ [] ∧ (∀ r ∈ defs, r.IsValid) ∧ ∃ d, (initialDraft defs).addRules defs = .ok d ∧
      g.terminals = d.terminals ∧ g.nonterminals = d.nonterminals ∧ g.rules = d.rules ∧
      g.start = ⟨1⟩ := by
  unfold Grammar.augment at h
  split at h
  · cases h
  · next first rest =>
    split at h
    · cases h
    · next hfault =>
      dsimp only at h
      split at h
      · cases h
      · next d hd =>
        cases h
        exact ⟨List.cons_ne_nil _ _, firstFault?_eq_none.mp hfault, d, hd, rfl, rfl, rfl, rfl⟩

/-- **What augmenting gives is the closed form.** -/
theorem Grammar.isAugmentation_of_augment {defs : List RuleDef} {g : Grammar}
    (h : Grammar.augment defs = .ok g) : g.IsAugmentation defs := by
  obtain ⟨nonempty, valid, d, hd, hterminals, hnonterminals, hrules, hstart⟩ :=
    exists_addRules_of_augment h
  -- the heads are registered before the rules are read, and one terminal is
  obtain ⟨hT, hN, hread⟩ := Draft.addRules_spec hd (size_terminals_initialDraft defs)
    (Draft.terminals_ofHeads ..) (Draft.nonterminals_ofHeads ..) fun _ => head_mem_initialDraft
  refine ⟨nonempty, valid, hterminals ▸ hT, hnonterminals ▸ hN, ?_, hstart⟩
  rw [hrules, hread, Array.toList_append]
  unfold Draft.ruleOf
  rw [hT, hN]
  rfl

/-- **A list that is accepted is within the capacities.** -/
theorem Grammar.length_le_of_augment {defs : List RuleDef} {g : Grammar}
    (h : Grammar.augment defs = .ok g) :
    (terminalNames defs).length ≤ capacity + 1 ∧ defs.length ≤ capacity := by
  have haug := isAugmentation_of_augment h
  obtain ⟨-, -, d, hd, hterminals, -, hrules, -⟩ := exists_addRules_of_augment h
  obtain ⟨hT, hsize⟩ := Draft.size_le_of_addRules hd (size_terminals_initialDraft defs)
    (by unfold initialDraft Draft.ofHeads; simp) fun _ => head_mem_initialDraft
  rw [← hterminals, ← Numbering.length_toList, haug.terminals] at hT
  rw [← hrules, ← Array.length_toList, haug.rules, augmentedRules, List.length_cons,
    List.length_map] at hsize
  exact ⟨hT, Nat.le_of_succ_le_succ hsize⟩

/-- **A list of valid rules within the capacities is accepted.** -/
theorem Grammar.exists_augment {defs : List RuleDef} (nonempty : defs ≠ [])
    (valid : ∀ r ∈ defs, r.IsValid) (hterminals : (terminalNames defs).length ≤ capacity + 1)
    (hrules : defs.length ≤ capacity) : ∃ g, Grammar.augment defs = .ok g := by
  cases defs with
  | nil => exact absurd rfl nonempty
  | cons first rest =>
    obtain ⟨d, hd⟩ := Draft.exists_addRules (d := initialDraft (first :: rest))
      (Draft.terminals_ofHeads ..) hterminals
      (by simp only [initialDraft, Draft.ofHeads, List.size_toArray, List.length_singleton]; omega)
      fun _ => head_mem_initialDraft
    refine ⟨⟨d.terminals, d.nonterminals, d.rules, ⟨1⟩, _, rfl⟩, ?_⟩
    unfold Grammar.augment
    simp only [firstFault?_eq_none.mpr valid]
    have hd' : (Draft.ofHeads (freshName (namesOf (first :: rest)) first.head)
      ((first :: rest).map (·.head))).addRules (first :: rest) = .ok d := hd
    rw [hd']

/-! ## Well-formed grammars -/

/-- A symbol of the grammar that can stand in a rule that was read. -/
def Grammar.HasSymbol (g : Grammar) : Symbol → Prop
  | .terminal t => t ≠ .endOfInput ∧ t.number < g.terminals.size
  | .nonterminal n => n ≠ .freshStart ∧ n.number < g.nonterminals.size

/-- What the sets and tables rely on: rule `0` starts the derivations, and the rules that were read are
about symbols of the grammar, the two reserved ones excepted. -/
structure Grammar.WellFormed (g : Grammar) : Prop where
  /-- rule `0` replaces the fresh start symbol by the start symbol -/
  startRule : g.rules.toList = ⟨.freshStart, #[.nonterminal g.start]⟩ :: g.inputRules
  /-- the end of the input has a number -/
  endOfInput_lt : Terminal.endOfInput.number < g.terminals.size
  /-- the start symbol is in the grammar -/
  hasSymbol_start : g.HasSymbol (.nonterminal g.start)
  /-- heads are in the grammar -/
  hasSymbol_left : ∀ r ∈ g.inputRules, g.HasSymbol (.nonterminal r.left)
  /-- symbols in bodies are in the grammar -/
  hasSymbol_right : ∀ r ∈ g.inputRules, ∀ s ∈ r.right.toList, g.HasSymbol s

/-- A name with an apostrophe behind it is not that of a nonterminal. -/
theorem isNonterminalName_primed {name : String} (h : isNonterminalName name = true) (k : Nat) :
    isNonterminalName (primed name (k + 1)) = false := by
  unfold isNonterminalName at h ⊢
  -- the name is one letter, and an apostrophe comes behind it
  have hlong : ∃ c rest, name.toList = [c] ∧
      (primed name (k + 1)).toList = c :: '\'' :: rest := by
    split at h
    · next c hc =>
      refine ⟨c, (List.replicate k "'").flatMap String.toList, hc, ?_⟩
      unfold primed
      rw [String.toList_append, hc, String.toList_join, List.replicate_succ, List.flatMap_cons]
      rfl
    · cases h
  obtain ⟨c, rest, -, hname⟩ := hlong
  rw [hname]

namespace Grammar.IsAugmentation

variable {g : Grammar} {defs : List RuleDef}

/-- The fresh name is not that of a nonterminal. -/
theorem isNonterminalName_startName (h : g.IsAugmentation defs) :
    isNonterminalName (startName defs) = false := by
  cases defs with
  | nil => exact absurd rfl h.nonempty
  | cons first rest =>
    exact isNonterminalName_primed (h.valid first (List.mem_cons_self ..)).1 _

/-- The fresh start has no name that the list could write. -/
theorem startName_ne (h : g.IsAugmentation defs) {name : String}
    (hname : isNonterminalName name = true) : startName defs ≠ name := by
  intro heq
  rw [← heq, h.isNonterminalName_startName] at hname
  cases hname

/-- **The input rules are the written ones**, in their order, with numbers for names. -/
theorem inputRules_eq (h : g.IsAugmentation defs) :
    g.inputRules = defs.map (ruleOf (terminalNames defs) (nonterminalNames defs)) := by
  unfold Grammar.inputRules
  rw [h.rules]
  rfl

/-- A registered nonterminal is a symbol of the grammar. -/
theorem hasSymbol_nonterminal (h : g.IsAugmentation defs) {name : String}
    (hmem : name ∈ nonterminalNames defs) (hname : isNonterminalName name = true) :
    g.HasSymbol (.nonterminal ⟨(nonterminalNames defs).idxOf name⟩) := by
  refine ⟨?_, ?_⟩
  · -- the fresh name alone stands at place `0`
    unfold nonterminalNames
    rw [List.cons_append, List.eraseDups_cons, List.idxOf_cons_ne _ (h.startName_ne hname)]
    exact fun hzero => Nat.succ_ne_zero _ (congrArg Nonterminal.number hzero)
  · rw [← Numbering.length_toList, h.nonterminals]
    exact List.idxOf_lt_length_of_mem hmem

/-- A registered terminal is a symbol of the grammar, unless it is the end of the input. -/
theorem hasSymbol_terminal (h : g.IsAugmentation defs) {name : String}
    (hmem : name ∈ terminalNames defs) (hname : name ≠ endMark) :
    g.HasSymbol (.terminal ⟨(terminalNames defs).idxOf name⟩) := by
  refine ⟨?_, ?_⟩
  -- the end of the input alone stands at place `0`
  · unfold terminalNames
    rw [List.eraseDups_cons, List.idxOf_cons_ne _ hname.symm]
    exact fun hzero => Nat.succ_ne_zero _ (congrArg Terminal.number hzero)
  · rw [← Numbering.length_toList, h.terminals]
    exact List.idxOf_lt_length_of_mem hmem

/-- The heads are registered. -/
theorem head_mem {r : RuleDef} (hr : r ∈ defs) : r.head ∈ nonterminalNames defs := by
  unfold nonterminalNames
  rw [List.mem_eraseDups]
  exact List.mem_append_left _ (List.mem_cons_of_mem _ (List.mem_map_of_mem hr))

/-- The nonterminals in bodies are registered. -/
theorem mem_nonterminalNames {r : RuleDef} (hr : r ∈ defs) {name : String} (hname : name ∈ r.body)
    (hclass : isNonterminalName name = true) : name ∈ nonterminalNames defs :=
  List.mem_eraseDups.mpr (List.mem_append_right _
    (List.mem_flatMap.mpr ⟨r, hr, List.mem_filter.mpr ⟨hname, hclass⟩⟩))

/-- The terminals in bodies are registered. -/
theorem mem_terminalNames {r : RuleDef} (hr : r ∈ defs) {name : String} (hname : name ∈ r.body)
    (hclass : isNonterminalName name = false) : name ∈ terminalNames defs :=
  List.mem_eraseDups.mpr (List.mem_cons_of_mem _ (List.mem_flatMap.mpr
    ⟨r, hr, List.mem_filter.mpr ⟨hname, by simp [isTerminalName, hclass]⟩⟩))

/-- The name in a body gives a symbol of the grammar. -/
theorem hasSymbol_symbolOf (h : g.IsAugmentation defs) {r : RuleDef} (hr : r ∈ defs)
    {name : String} (hname : name ∈ r.body) :
    g.HasSymbol (symbolOf (terminalNames defs) (nonterminalNames defs) name) := by
  unfold symbolOf
  cases hclass : isNonterminalName name with
  | true => exact h.hasSymbol_nonterminal (mem_nonterminalNames hr hname hclass) hclass
  | false =>
    exact h.hasSymbol_terminal (mem_terminalNames hr hname hclass) ((h.valid r hr).2.1 name hname).2.1

/-- The head of the first rule has number `1`. -/
theorem idxOf_head (h : g.IsAugmentation defs) {first : RuleDef} {rest : List RuleDef}
    (hdefs : defs = first :: rest) : (nonterminalNames defs).idxOf first.head = 1 := by
  subst hdefs
  have hfresh := h.startName_ne (h.valid first (List.mem_cons_self ..)).1
  unfold nonterminalNames
  rw [List.map_cons, List.cons_append, List.cons_append, List.eraseDups_cons,
    List.idxOf_cons_ne _ hfresh, List.filter_cons_of_pos (by simpa using Ne.symm hfresh),
    List.eraseDups_cons, List.idxOf_cons_self]

/-- Number `1` has the name of the first head. -/
theorem value?_one {first : RuleDef} {rest : List RuleDef} (h : g.IsAugmentation (first :: rest)) :
    g.nonterminals.value? 1 = some first.head := by
  rw [← Numbering.getElem?_toList, h.nonterminals, ← h.idxOf_head rfl]
  exact List.getElem?_idxOf (head_mem (List.mem_cons_self ..))

/-- **An augmented grammar is well-formed.** -/
theorem wellFormed (h : g.IsAugmentation defs) : g.WellFormed where
  startRule := by
    rw [h.inputRules_eq, h.rules, h.start]
    rfl
  endOfInput_lt := by
    rw [← Numbering.length_toList, h.terminals, terminalNames, List.eraseDups_cons]
    exact Nat.succ_pos _
  hasSymbol_start := by
    obtain ⟨first, rest, hdefs⟩ := List.exists_cons_of_ne_nil h.nonempty
    have hfirst : first ∈ defs := hdefs ▸ List.mem_cons_self ..
    rw [h.start, ← h.idxOf_head hdefs]
    exact h.hasSymbol_nonterminal (head_mem hfirst) (h.valid first hfirst).1
  hasSymbol_left := by
    intro r hr
    rw [h.inputRules_eq, List.mem_map] at hr
    obtain ⟨d, hd, rfl⟩ := hr
    exact h.hasSymbol_nonterminal (head_mem hd) (h.valid d hd).1
  hasSymbol_right := by
    intro r hr s hs
    rw [h.inputRules_eq, List.mem_map] at hr
    obtain ⟨d, hd, rfl⟩ := hr
    obtain ⟨name, hname, rfl⟩ := List.mem_map.mp hs
    exact h.hasSymbol_symbolOf hd hname

end Grammar.IsAugmentation

/-- What augmenting gives is well-formed. -/
theorem Grammar.wellFormed_of_augment {defs : List RuleDef} {g : Grammar}
    (h : Grammar.augment defs = .ok g) : g.WellFormed :=
  (Grammar.isAugmentation_of_augment h).wellFormed

end ShiftReduce
