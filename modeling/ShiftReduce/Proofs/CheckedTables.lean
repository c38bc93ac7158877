import ShiftReduce.Proofs.Cells
import ShiftReduce.Proofs.CheckedItems
import ShiftReduce.Sheet

/-! # Tables with every look-up checked

The automaton, the tables, the reports and the sheet are computed once more with every look-up of a rule
checked. Nothing fails, and the results are the same: for the automaton and the tables of a rule list
this is `Checked.tables_eq`, for what is made of them `Checked.sheet_eq` and `Checked.text_eq`. -/

namespace ShiftReduce

namespace Checked

/-! ## The automaton -/

/-- The symbols that the items of a set expect, in the order in which they first occur, and the rules of
its complete items. -/
def scan (g : Grammar) (s : ItemSet) : Checked (List Symbol × List Nat) := do
  let nexts ← s.items.mapM fun i => return (i.rule, ← next g i)
  return ((nexts.filterMap (·.2)).eraseDups, (nexts.filter (·.2.isNone)).map (·.1))

/-- The edges of a state for some symbols. There is none to an empty goto set. -/
def edges (g : Grammar) (items : ItemSet) :
    List Symbol → Numbering ItemSet → Checked (List (Symbol × Nat) × Numbering ItemSet)
  | [], found => .ok ([], found)
  | x :: rest, found => do
    let target ← goto g items x
    if target.isEmpty then edges g items rest found
    else
      let interned := found.intern target
      let (others, found) ← edges g items rest interned.2
      return ((x, interned.1) :: others, found)

/-- Takes up the item sets that are found but not among the states yet. -/
def explore (g : Grammar) : Nat → Array State → Numbering ItemSet → Checked (Array State)
  | 0, states, found => if found.size ≤ states.size then .ok states else .error .unfinished
  | bound + 1, states, found =>
    match found.value? states.size with
    | none => .ok states
    | some items => do
      let scanned ← scan g items
      let (out, found) ← edges g items scanned.1 found
      explore g bound (states.push ⟨items, out⟩) found

/-- The automaton of a grammar. -/
def automaton (g : Grammar) : Checked Automaton := do
  let items ← closure g [.start]
  let states ← explore g (2 ^ Automaton.itemCount g) #[] (Numbering.empty.intern items).2
  return ⟨states⟩

/-! ## The tables -/

/-- The actions that a complete item offers. -/
def reductions (g : Grammar) (follow : FollowSets) (k : Nat) : Checked (List (Terminal × Action)) :=
  if k = 0 then .ok [(.endOfInput, .accept)]
  else do
    let r ← rule g k
    match follow.get? r.left with
    | some terminals => return terminals.toList.map (·, .reduce k)
    | none => return []

/-- All actions that a state offers. -/
def candidates (g : Grammar) (follow : FollowSets) (s : State) :
    Checked (List (Terminal × Action)) := do
  let scanned ← scan g s.items
  let offered ← scanned.2.mapM (reductions g follow)
  return s.shifts.map (fun (t, target) => (t, .shift target)) ++ offered.flatten

/-- The row of a state, with its conflicts. -/
def row (g : Grammar) (follow : FollowSets) (state : Nat) (s : State) :
    Checked (Row × List Conflict) := do
  let (actions, conflicts) := writeActions state {} (← candidates g follow s)
  return (⟨actions, ⟨s.gotos⟩⟩, conflicts)

/-- The tables of an automaton. -/
def table (g : Grammar) (follow : FollowSets) (a : Automaton) : Checked ParseTable := do
  let rows ← a.states.toList.zipIdx.mapM fun (s, i) => row g follow i s
  return ⟨(rows.map (·.1)).toArray, rows.flatMap (·.2)⟩

/-- The tables of a rule list. -/
def tables (defs : List RuleDef) : Checked (Except GrammarError Tables) :=
  match Grammar.augment defs with
  | .error e => .ok (.error e)
  | .ok g => do
    let first := FirstSets.ofGrammar g
    let follow := FollowSets.ofGrammar g first
    let states ← automaton g
    let cells ← table g follow states
    return .ok ⟨g, first, follow, states, cells⟩

/-! ## What is made of the tables -/

/-- The text of the rule with a number. -/
def ruleText (g : Grammar) (k : Nat) : Checked String := return g.ruleText (← rule g k)

/-- The texts of the items of a set. -/
def itemTexts (g : Grammar) (s : ItemSet) : Checked (List String) :=
  s.items.mapM fun i => return Item.ruleText g (← rule g i.rule) i.marker

/-- A state as a report. -/
def stateText (g : Grammar) (s : State) : Checked String := do
  let items ← itemTexts g s.items
  let scanned ← scan g s.items
  let reductions ← scanned.2.mapM (ruleText g)
  return lines <|
    "## items:" :: items.map ("- " ++ ·) ++
    listUnder "## shifts:" (s.shifts.map fun (t, i) => g.terminalName t ++ " => " ++ stateLabel i) ++
    listUnder "## gotos:"
      (s.gotos.map fun (n, i) => g.nonterminalName n ++ " => " ++ stateLabel i) ++
    listUnder "## reduces:" reductions

/-- The automaton as a report. -/
def automatonText (g : Grammar) (a : Automaton) : Checked String := do
  let states ← a.states.toList.zipIdx.mapM fun (s, i) =>
    return lines ["#### State " ++ stateLabel i] ++ (← stateText g s)
  return paragraphs states

/-- An action as it is described in the report. -/
def describe (g : Grammar) : Action → Checked String
  | .shift state => .ok ("shift(" ++ stateLabel state ++ ")")
  | .reduce k => return "reduce(" ++ (← ruleText g k) ++ ")"
  | .accept => .ok "accept"

/-- A row as a report. -/
def rowText (g : Grammar) (state : Nat) (r : Row) : Checked String := do
  let actions ← r.actions.entries.mapM fun (t, a) =>
    return "- " ++ g.terminalName t ++ " => " ++ (← describe g a)
  return lines <|
    ["#### State " ++ stateLabel state, "## actions"] ++ actions ++
    "## gotos" ::
    r.gotos.entries.map (fun (n, i) =>
      "- " ++ g.nonterminalName n ++ " => goto(" ++ stateLabel i ++ ")")

/-- The tables as a report. -/
def tableText (g : Grammar) (p : ParseTable) : Checked String := do
  let rows ← p.rows.toList.zipIdx.mapM fun (r, i) => rowText g i r
  let conflicts := p.conflicts.map fun c => "- " ++ c.text g
  return paragraphs (rows ++
    if conflicts.isEmpty then [] else [lines ("## conflicts" :: conflicts)])

/-- Everything as one report. -/
def text (t : Tables) : Checked String := do
  let automaton ← automatonText t.grammar t.automaton
  let table ← tableText t.grammar t.table
  return paragraphs [
    t.grammar.text,
    lines ["## first sets:"] ++ t.first.text t.grammar,
    lines ["## follow sets:"] ++ t.follow.text t.grammar,
    automaton,
    table]

/-- The sheet of some tables. -/
def sheet (t : Tables) : Checked Sheet := do
  let states ← t.automaton.states.toList.mapM fun s => itemTexts t.grammar s.items
  return {
    states := states
    transitions := t.automaton.transitions.map fun e =>
      ⟨e.source, e.target, t.grammar.symbolName e.symbol⟩
    actions := t.table.rows.toList.zipIdx.map fun (r, i) => Sheet.actionRow t.grammar i r
    gotos := t.table.rows.toList.zipIdx.map fun (r, i) => Sheet.gotoRow t.grammar i r }

/-! ## Nothing fails -/

variable {g : Grammar}

/-- What is expected is told by what stands behind the markers, and so is what is complete. -/
theorem scan_eq {s : ItemSet} (hrules : ∀ i ∈ s, ∃ r, g.rule? i.rule = some r) :
    scan g s = .ok (s.expected g, s.completeRules g) := by
  have hnexts : (s.items.mapM fun i => return (i.rule, ← next g i) : Checked _) =
      .ok (s.items.map fun i => (i.rule, i.next? g)) := by
    refine mapM_eq_map fun i hi => ?_
    obtain ⟨r, hr⟩ := hrules i hi
    rw [next_eq hr, ok_bind]
    rfl
  have hcomplete : (s.items.filter fun i => (i.next? g).isNone) =
      s.items.filter (·.isComplete g) := by
    refine List.filter_congr fun i hi => ?_
    obtain ⟨r, hr⟩ := hrules i hi
    exact (Item.isComplete_eq hr).symm
  unfold scan ItemSet.expected ItemSet.completeRules
  rw [hnexts, ok_bind, List.filterMap_map, List.filter_map, List.map_map, ← hcomplete]
  rfl

/-- Item sets whose goto sets are not empty have an edge to each. -/
theorem edges_eq (wf : g.WellFormed) (room : g.HasRoom) {items : ItemSet}
    (hrules : ∀ i ∈ items, ∃ r, g.rule? i.rule = some r) {symbols : List Symbol}
    (hsymbols : ∀ x ∈ symbols, x ∈ items.expected g) (found : Numbering ItemSet) :
    edges g items symbols found = .ok (Automaton.edges g items symbols found) := by
  induction symbols generalizing found with
  | nil => rfl
  | cons x symbols ih =>
    have hrest := ih (fun y hy => hsymbols y (List.mem_cons_of_mem _ hy))
      (found.intern (items.goto g x)).2
    have hsome : (items.goto g x).isEmpty = false := by
      obtain ⟨i, hi⟩ := (ItemSet.exists_mem_goto_iff wf).mpr (hsymbols x (List.mem_cons_self ..))
      unfold ItemSet.isEmpty
      rw [List.isEmpty_eq_false_iff]
      exact List.ne_nil_of_mem hi
    unfold edges
    rw [goto_eq wf room hrules, ok_bind, hsome, if_neg Bool.false_ne_true]
    dsimp only
    rw [hrest]
    rfl

/-- The items of the grammar are items of its rules. -/
theorem rules_of_allItems {s : ItemSet} (h : ∀ i ∈ s, i ∈ Automaton.allItems g) :
    ∀ i ∈ s, ∃ r, g.rule? i.rule = some r := by
  intro i hi
  obtain ⟨-, r, hr, -⟩ := Automaton.mem_allItems.mp (h i hi)
  exact ⟨r, hr⟩

/-- **Taking up all item sets does not fail,** as they hold items of rules only, and the bound leaves
room for all of them. -/
theorem explore_eq (wf : g.WellFormed) (room : g.HasRoom) {bound : Nat} {states : Array State}
    {found : Numbering ItemSet} (hitems : ∀ s ∈ found.toList, ∀ i ∈ s, i ∈ Automaton.allItems g)
    (hbound : (Automaton.collect g bound states.size found.toList).length ≤ states.size + bound) :
    explore g bound states found = .ok (Automaton.explore g bound states found) := by
  induction bound generalizing states found with
  | zero =>
    have hroom : found.size ≤ states.size := found.length_toList ▸ hbound
    unfold explore
    rw [if_pos hroom]
    rfl
  | succ bound ih =>
    unfold explore Automaton.explore
    cases hnext : found.value? states.size with
    | none => rfl
    | some items =>
      rw [← Numbering.getElem?_toList] at hnext
      have hall := hitems items (List.mem_of_getElem? hnext)
      have hlist := Automaton.toList_edges (g := g) items (items.expected g) found
      dsimp only
      rw [scan_eq (rules_of_allItems hall), ok_bind,
        edges_eq wf room (rules_of_allItems hall) fun x hx => hx, ok_bind]
      refine ih (fun s hs => ?_) ?_
      · -- a new item set is a goto set
        rw [hlist, List.mem_eraseDups, List.mem_append] at hs
        rcases hs with hs | hs
        · exact hitems s hs
        · obtain ⟨x, -, rfl⟩ := List.mem_map.mp hs
          exact Automaton.mem_allItems_of_mem_goto hall x
      · unfold Automaton.collect at hbound
        rw [hnext] at hbound
        rw [hlist, Array.size_push]
        exact Nat.le_trans hbound (by omega)

/-- **The automaton of a grammar is computed without a failure.** -/
theorem automaton_eq (wf : g.WellFormed) (room : g.HasRoom) :
    automaton g = .ok (Automaton.ofGrammar g) := by
  have hstart : closure g [.start] = .ok (Automaton.startItems g) := by
    refine closure_eq wf fun i hi => ?_
    rw [List.mem_singleton.mp hi]
    exact ⟨_, wf.rule?_zero⟩
  have hlist : (Numbering.empty.intern (Automaton.startItems g)).2.toList =
      [Automaton.startItems g] := by
    rw [Numbering.toList_intern, if_neg (by rw [Numbering.toList_empty]; exact List.not_mem_nil),
      Numbering.toList_empty, List.nil_append]
  have hexplore : explore g (2 ^ Automaton.itemCount g) #[]
      (Numbering.empty.intern (Automaton.startItems g)).2 =
      .ok (Automaton.ofGrammar g).states := by
    refine explore_eq wf room (fun s hs => ?_) ?_
    · rw [hlist] at hs
      rw [List.mem_singleton.mp hs]
      exact Automaton.mem_allItems_of_mem_startItems wf
    · rw [hlist, List.size_toArray, List.length_nil, Nat.zero_add]
      exact Automaton.length_itemSets_le wf
  unfold automaton
  rw [hstart, ok_bind, hexplore, ok_bind]
  rfl

/-! ### The tables -/

/-- Items of all states are those of rules. -/
def HasRules (g : Grammar) (a : Automaton) : Prop :=
  ∀ s ∈ a.states.toList, ∀ i ∈ s.items, ∃ r, g.rule? i.rule = some r

/-- The items of the automaton are items of rules. -/
theorem hasRules_ofGrammar (wf : g.WellFormed) : HasRules g (.ofGrammar g) := by
  intro s hs i hi
  rw [Automaton.toList_states wf, List.mem_map] at hs
  obtain ⟨items, hitems, rfl⟩ := hs
  exact rules_of_allItems (Automaton.mem_allItems_of_mem_itemSets wf items hitems) i hi

/-- The reductions over a rule are found with the checks as without. -/
theorem reductions_eq (follow : FollowSets) {k : Nat} {r : Rule} (hr : g.rule? k = some r) :
    reductions g follow k = .ok (reductionsOf g follow k) := by
  unfold reductions reductionsOf
  by_cases hzero : k = 0
  · rw [if_pos hzero, if_pos hzero]
  · rw [if_neg hzero, if_neg hzero, rule_eq hr, ok_bind, hr, Option.bind_some]
    cases follow.get? r.left <;> rfl

/-- The candidates of a state are found with the checks as without. -/
theorem candidates_eq (follow : FollowSets) {s : State}
    (hrules : ∀ i ∈ s.items, ∃ r, g.rule? i.rule = some r) :
    candidates g follow s = .ok (s.candidates g follow) := by
  have hoffered : (s.items.completeRules g).mapM (reductions g follow) =
      .ok ((s.items.completeRules g).map (reductionsOf g follow)) := by
    refine mapM_eq_map fun k hk => ?_
    obtain ⟨i, -, hcomplete, rfl⟩ := State.mem_reduces.mp hk
    obtain ⟨r, hr, -⟩ := Item.isComplete_iff.mp hcomplete
    exact reductions_eq follow hr
  unfold candidates State.candidates State.reduces
  rw [scan_eq hrules, ok_bind, hoffered, ok_bind, ← List.flatMap_def]
  rfl

/-- **The table is built with the checks as without.** -/
theorem table_eq (follow : FollowSets) {a : Automaton} (hrules : HasRules g a) :
    table g follow a = .ok (ParseTable.ofAutomaton g follow a) := by
  have hrows : (a.states.toList.zipIdx.mapM fun (s, i) => row g follow i s) =
      .ok (a.states.toList.zipIdx.map fun (s, i) => ParseTable.rowOf g follow i s) := by
    refine mapM_eq_map fun (s, i) hs => ?_
    have hstate := hrules s (List.fst_mem_of_mem_zipIdx hs)
    dsimp only
    unfold row ParseTable.rowOf
    rw [candidates_eq follow hstate, ok_bind]
    rfl
  unfold table ParseTable.ofAutomaton
  rw [hrows, ok_bind]
  rfl

/-- **The tables of a rule list are computed without a failure.** -/
theorem tables_eq (defs : List RuleDef) : tables defs = .ok (Tables.ofRules defs) := by
  unfold tables Tables.ofRules
  cases hg : Grammar.augment defs with
  | error e => rfl
  | ok g =>
    have wf := Grammar.wellFormed_of_augment hg
    dsimp only
    rw [automaton_eq wf (Grammar.hasRoom_of_augment hg), ok_bind, table_eq _ (hasRules_ofGrammar wf),
      ok_bind]
    rfl

/-! ### Reports and sheets -/

/-- The items of a state are written with the checks as without. -/
theorem itemTexts_eq {s : ItemSet} (hrules : ∀ i ∈ s, ∃ r, g.rule? i.rule = some r) :
    itemTexts g s = .ok (s.items.filterMap (·.text? g)) := by
  refine mapM_eq_filterMap fun i hi => ?_
  obtain ⟨r, hr⟩ := hrules i hi
  refine ⟨Item.ruleText g r i.marker, ?_, ?_⟩
  · rw [rule_eq hr, ok_bind]
    rfl
  · rw [Item.text?, hr]
    rfl

/-- A rule is written with the checks as without. -/
theorem ruleText_eq {k : Nat} {r : Rule} (hr : g.rule? k = some r) :
    ruleText g k = .ok (g.ruleText r) := by
  unfold ruleText
  rw [rule_eq hr]
  rfl

/-- A state is written with the checks as without. -/
theorem stateText_eq {s : State} (hrules : ∀ i ∈ s.items, ∃ r, g.rule? i.rule = some r) :
    stateText g s = .ok (s.text g) := by
  have hreductions : (s.items.completeRules g).mapM (ruleText g) =
      .ok ((s.items.completeRules g).filterMap fun k => (g.rule? k).map g.ruleText) := by
    refine mapM_eq_filterMap fun k hk => ?_
    obtain ⟨i, -, hcomplete, rfl⟩ := State.mem_reduces.mp hk
    obtain ⟨r, hr, -⟩ := Item.isComplete_iff.mp hcomplete
    exact ⟨g.ruleText r, ruleText_eq hr, by rw [hr]; rfl⟩
  unfold stateText State.text State.reduces
  rw [itemTexts_eq hrules, ok_bind, scan_eq hrules, ok_bind, hreductions, ok_bind]
  rfl

/-- The automaton is written with the checks as without. -/
theorem automatonText_eq {a : Automaton} (hrules : HasRules g a) :
    automatonText g a = .ok (a.text g) := by
  have hstates : (a.states.toList.zipIdx.mapM fun (s, i) =>
      return lines ["#### State " ++ stateLabel i] ++ (← stateText g s) : Checked _) =
      .ok (a.states.toList.zipIdx.map fun (s, i) =>
        lines ["#### State " ++ stateLabel i] ++ s.text g) := by
    refine mapM_eq_map fun (s, i) hs => ?_
    dsimp only
    rw [stateText_eq (hrules s (List.fst_mem_of_mem_zipIdx hs)), ok_bind]
    rfl
  unfold automatonText
  rw [hstates, ok_bind]
  rfl

/-- The cells of all rows hold reductions of rules. -/
def CellsHaveRules (g : Grammar) (p : ParseTable) : Prop :=
  ∀ row ∈ p.rows.toList, ∀ e ∈ row.actions.entries, ∀ k, e.2 = .reduce k → ∃ r, g.rule? k = some r

/-- An action is described with the checks as without. -/
theorem describe_eq {a : Action} (hrule : ∀ k, a = .reduce k → ∃ r, g.rule? k = some r) :
    describe g a = .ok (ParseTable.describe g a) := by
  cases a with
  | shift j => rfl
  | accept => rfl
  | reduce k =>
    obtain ⟨r, hr⟩ := hrule k rfl
    unfold describe ParseTable.describe
    dsimp only
    rw [ruleText_eq hr, ok_bind, hr]
    rfl

/-- The table is written with the checks as without. -/
theorem tableText_eq {p : ParseTable} (hrules : CellsHaveRules g p) :
    tableText g p = .ok (p.text g) := by
  have hrow (i : Nat) {row : Row} (hrow : row ∈ p.rows.toList) :
      rowText g i row = .ok (ParseTable.rowText g i row) := by
    have hactions : (row.actions.entries.mapM fun (t, a) =>
        return "- " ++ g.terminalName t ++ " => " ++ (← describe g a) : Checked _) =
        .ok (row.actions.entries.map fun (t, a) =>
          "- " ++ g.terminalName t ++ " => " ++ ParseTable.describe g a) := by
      refine mapM_eq_map fun (t, a) he => ?_
      dsimp only
      rw [describe_eq (hrules row hrow (t, a) he), ok_bind]
      rfl
    unfold rowText ParseTable.rowText
    rw [hactions, ok_bind]
    rfl
  have hrows : (p.rows.toList.zipIdx.mapM fun (r, i) => rowText g i r) =
      .ok (p.rows.toList.zipIdx.map fun (r, i) => ParseTable.rowText g i r) :=
    mapM_eq_map fun (r, i) hr => hrow i (List.fst_mem_of_mem_zipIdx hr)
  unfold tableText ParseTable.text
  rw [hrows, ok_bind]
  rfl

/-- **The tables are written as a text with the checks as without.** -/
theorem text_eq {t : Tables} (hrules : HasRules t.grammar t.automaton)
    (hcells : CellsHaveRules t.grammar t.table) : text t = .ok t.text := by
  unfold text Tables.text
  rw [automatonText_eq hrules, ok_bind, tableText_eq hcells, ok_bind]
  rfl

/-- **The sheet is filled with the checks as without.** -/
theorem sheet_eq {t : Tables} (hrules : HasRules t.grammar t.automaton) :
    sheet t = .ok (.ofTables t) := by
  have hstates : (t.automaton.states.toList.mapM fun s => itemTexts t.grammar s.items) =
      .ok (t.automaton.states.toList.map fun s => s.items.items.filterMap (·.text? t.grammar)) :=
    mapM_eq_map fun s hs => itemTexts_eq (hrules s hs)
  unfold sheet Sheet.ofTables
  rw [hstates, ok_bind]
  rfl

end Checked

end ShiftReduce
