import ShiftReduce.Proofs.Evaluation
import ShiftReduce.Proofs.SheetRows

/-! # The keys of a row

A row is written as one object, with the number of its state under the key `state` and each cell under the
name of its column. So whatever a reader does with a key that comes twice, it finds these values when the
keys are different. Nonterminals are single capital letters, so this holds of all rows of gotos; a row of
actions has all its keys different unless a terminal is called `state` (`Sheet.isKeyed_ofTables`). Then it
has that key twice, once for the number and once for the cell (`Sheet.exists_repeated_key`). -/

namespace ShiftReduce

/-! ## Objects with repeated keys -/

namespace Json

/-- The keys of an object, in order. -/
def keys : Json String → List String
  | .object members => members.map (·.1)
  | _ => []

/-- All values that an object has at a key, in order. -/
def valuesAt (key : String) : Json String → List (Json String)
  | .object members => (members.filter (·.1 = key)).map (·.2)
  | _ => []

end Json

/-- When no key comes twice, the values at a key are the one that is looked up. -/
theorem OrderedMap.map_filter_entries {κ α : Type} [DecidableEq κ] {m : OrderedMap κ α}
    (h : m.keys.Nodup) (key : κ) : (m.entries.filter (·.1 = key)).map (·.2) = (m.get? key).toList := by
  obtain ⟨l⟩ := m
  simp only [keys] at h
  unfold get?
  induction l with
  | nil => rfl
  | cons e l ih =>
    obtain ⟨hnew, hl⟩ := List.nodup_cons.mp h
    by_cases hkey : e.1 = key
    · -- the others have other keys
      have hothers : l.filter (·.1 = key) = [] := by
        rw [List.filter_eq_nil_iff]
        intro e' he' heq
        apply hnew
        show e.1 ∈ _
        rw [hkey, ← of_decide_eq_true heq]
        exact List.mem_map_of_mem he'
      simp [lookup, hkey, hothers]
    · simp [lookup, hkey, Ne.symm hkey, ih hl]

namespace Sheet

section Rows

variable {row : SheetRow}

/-- The state is the first key, and then there are the columns. -/
@[simp] theorem keys_rowToJson (row : SheetRow) : (rowToJson row).keys = "state" :: row.cells.keys := by
  simp [rowToJson, Json.keys, OrderedMap.keys]

/-- **A row has the number of its state at the key `state`, and behind it the cell of a column that is called
so.** At any other key it has the cell of that column. -/
theorem valuesAt_rowToJson (h : row.cells.keys.Nodup) (key : String) :
    (rowToJson row).valuesAt key =
      (if key = "state" then [.string row.state] else []) ++ (row.get? key).toList.map .string := by
  have hcells : ((row.cells.entries.map fun cell => (cell.1, Json.string cell.2)).filter
      (·.1 = key)).map (·.2) = (row.get? key).toList.map Json.string := by
    show _ = (row.cells.get? key).toList.map _
    rw [← OrderedMap.map_filter_entries h key, List.filter_map, List.map_map, List.map_map]
    rfl
  show ((("state", Json.string row.state) :: row.cells.entries.map fun cell =>
    (cell.1, Json.string cell.2)).filter (·.1 = key)).map (·.2) = _
  by_cases hkey : key = "state"
  · subst hkey
    simp [hcells]
  · simp [hkey, Ne.symm hkey, hcells]

/-- The keys of a row are different when no column is called like the key of the number. -/
theorem nodup_keys_rowToJson {i : Nat} {columns : List String} (h : row.IsRowOf i columns) :
    (rowToJson row).keys.Nodup ↔ "state" ∉ columns := by
  rw [keys_rowToJson, List.nodup_cons, h.columns_perm.mem_iff]
  exact and_iff_left h.nodup

/-- A column with another name has one value, which is its cell. -/
theorem valuesAt_of_ne {i : Nat} {columns : List String} (h : row.IsRowOf i columns) {column cell : String}
    (hcell : row.get? column = some cell) (hne : column ≠ "state") :
    (rowToJson row).valuesAt column = [.string cell] := by
  simp [valuesAt_rowToJson h.nodup, hne, hcell]

/-- The number has its key to itself when no column is called so. -/
theorem valuesAt_state {i : Nat} {columns : List String} (h : row.IsRowOf i columns)
    (hstate : "state" ∉ columns) : (rowToJson row).valuesAt "state" = [.string (toString i)] := by
  have hnone : row.get? "state" = none := by
    rw [Option.eq_none_iff_forall_ne_some]
    intro cell hcell
    have hentry := OrderedMap.mem_entries_of_get? hcell
    exact hstate (h.columns_perm.mem_iff.mp (List.mem_map_of_mem (f := (·.1)) hentry))
  simp [valuesAt_rowToJson h.nodup, hnone, h.state]

/-- Behind the number there is the cell of a column that is called like its key. -/
theorem valuesAt_state_of_column {i : Nat} {columns : List String} (h : row.IsRowOf i columns)
    {cell : String} (hcell : row.get? "state" = some cell) :
    (rowToJson row).valuesAt "state" = [.string (toString i), .string cell] := by
  simp [valuesAt_rowToJson h.nodup, hcell, h.state]

end Rows

/-! ## The rows of a sheet -/

/-- What the objects of the rows have at their keys. -/
structure IsKeyed (s : Sheet) (t : Tables) (defs : List RuleDef) : Prop where
  /-- a row of gotos has different keys -/
  nodup_gotoKeys : ∀ row ∈ s.gotos, (rowToJson row).keys.Nodup
  /-- a row of actions has different keys when no body has the name `state` -/
  nodup_actionKeys_iff : ∀ row ∈ s.actions,
    (rowToJson row).keys.Nodup ↔ ∀ d ∈ defs, "state" ∉ d.body
  /-- a row of gotos has the number of the state at `state` -/
  goto_state : ∀ (i : Nat) (row : SheetRow), s.gotos[i]? = some row →
    (rowToJson row).valuesAt "state" = [.string (toString i)]
  /-- a row of gotos has the cell of a nonterminal at its name -/
  goto_column : ∀ (i : Nat) (row : SheetRow), s.gotos[i]? = some row →
    ∀ n ∈ t.grammar.allNonterminals, n ≠ .freshStart →
      (rowToJson row).valuesAt (t.grammar.nonterminalName n) =
        [.string (((t.table.goto? i n).map gotoText).getD "")]
  /-- a row of actions has the number of the state at `state` when no body has this name -/
  action_state : ∀ (i : Nat) (row : SheetRow), s.actions[i]? = some row →
    (∀ d ∈ defs, "state" ∉ d.body) → (rowToJson row).valuesAt "state" = [.string (toString i)]
  /-- a row of actions has the cell of a terminal at its name, if this is another one -/
  action_column : ∀ (i : Nat) (row : SheetRow), s.actions[i]? = some row →
    ∀ x ∈ t.grammar.allTerminals, t.grammar.terminalName x ≠ "state" →
      (rowToJson row).valuesAt (t.grammar.terminalName x) =
        [.string (((t.table.action? i x).map Action.text).getD "")]
  /-- the number of the state and the cell of a terminal with this name are both at `state` -/
  action_clash : ∀ (i : Nat) (row : SheetRow), s.actions[i]? = some row →
    ∀ x ∈ t.grammar.allTerminals, t.grammar.terminalName x = "state" →
      (rowToJson row).valuesAt "state" =
        [.string (toString i), .string (((t.table.action? i x).map Action.text).getD "")]

section OfGrammar

variable {g : Grammar} {defs : List RuleDef}

/-- A terminal is called `state` when a body has this name. -/
theorem state_mem_terminals_iff (h : g.IsAugmentation defs) :
    "state" ∈ g.terminals.toList ↔ ∃ d ∈ defs, "state" ∈ d.body := by
  have hclass : isTerminalName "state" = true := by decide
  have hend : "state" ≠ endMark := by decide
  rw [h.terminals, terminalNames_eq h.valid]
  simp [writtenTerminals, hclass, hend]

/-- A nonterminal is not called `state`. -/
theorem state_not_mem_nonterminals (h : g.IsAugmentation defs) :
    "state" ∉ g.nonterminals.toList.tail := by
  have hclass : isNonterminalName "state" = false := by decide
  rw [h.nonterminals, h.nonterminalNames_eq]
  exact not_mem_writtenNonterminals h.valid hclass

/-- The sheet of an augmented grammar shows its tables. -/
theorem isFaithful_of_augment (hg : Grammar.augment defs = .ok g) :
    (ofTables (.ofGrammar g)).IsFaithful (.ofGrammar g) := by
  have haug := Grammar.isAugmentation_of_augment hg
  exact isFaithful_ofGrammar haug
    (Tables.numbersExist_ofGrammar haug.wellFormed (Grammar.hasRoom_of_augment hg))

end OfGrammar

/-- **The keys of the rows.** A row of gotos is a map: it has different keys, the number of the state at
`state` and the cell of each nonterminal at its name. So is a row of actions, exactly when no body has the
name `state`. -/
theorem isKeyed_ofTables {defs : List RuleDef} {t : Tables} (h : Tables.ofRules defs = .ok t) :
    (ofTables t).IsKeyed t defs := by
  obtain ⟨g, hg, rfl⟩ := Tables.ofRules_eq_ok.mp h
  have haug := Grammar.isAugmentation_of_augment hg
  have hfaithful := isFaithful_of_augment hg
  have hgotos := state_not_mem_nonterminals haug
  have hactions : "state" ∉ g.terminals.toList ↔ ∀ d ∈ defs, "state" ∉ d.body := by
    simp [state_mem_terminals_iff haug]
  constructor
  case nodup_gotoKeys =>
    intro row hrow
    obtain ⟨i, hi⟩ := List.mem_iff_getElem?.mp hrow
    exact (nodup_keys_rowToJson (hfaithful.gotoRow i row hi)).mpr hgotos
  case nodup_actionKeys_iff =>
    intro row hrow
    obtain ⟨i, hi⟩ := List.mem_iff_getElem?.mp hrow
    exact (nodup_keys_rowToJson (hfaithful.actionRow i row hi)).trans hactions
  case goto_state =>
    intro i row hrow
    exact valuesAt_state (hfaithful.gotoRow i row hrow) hgotos
  case goto_column =>
    intro i row hrow n hn hfresh
    refine valuesAt_of_ne (hfaithful.gotoRow i row hrow) (hfaithful.gotoCell i row hrow n hn hfresh) ?_
    intro heq
    have hclass : isNonterminalName ((Tables.ofGrammar g).grammar.nonterminalName n) = true :=
      haug.isNonterminalName_nonterminalName hn hfresh
    rw [heq] at hclass
    exact absurd hclass (by decide)
  case action_state =>
    intro i row hrow hstate
    exact valuesAt_state (hfaithful.actionRow i row hrow) (hactions.mpr hstate)
  case action_column =>
    intro i row hrow x hx hne
    exact valuesAt_of_ne (hfaithful.actionRow i row hrow) (hfaithful.actionCell i row hrow x hx) hne
  case action_clash =>
    intro i row hrow x hx heq
    have hcell := hfaithful.actionCell i row hrow x hx
    rw [heq] at hcell
    exact valuesAt_state_of_column (hfaithful.actionRow i row hrow) hcell

/-- A name that only begins like the key is no harm. -/
theorem isKeyed_ofTables_statesName : ∃ t,
    Tables.ofRules [⟨"S", ["states", "S"]⟩, ⟨"S", []⟩] = .ok t ∧
    (ofTables t).IsKeyed t [⟨"S", ["states", "S"]⟩, ⟨"S", []⟩] ∧
    ∀ row ∈ (ofTables t).actions, (rowToJson row).keys.Nodup := by
  obtain ⟨g, hg⟩ : ∃ g, Grammar.augment [⟨"S", ["states", "S"]⟩, ⟨"S", []⟩] = .ok g :=
    Grammar.exists_augment (by decide) (by unfold RuleDef.IsValid; decide) (by decide) (by decide)
  have ht := Tables.ofRules_eq_ok.mpr ⟨g, hg, rfl⟩
  have hkeyed := isKeyed_ofTables ht
  exact ⟨.ofGrammar g, ht, hkeyed, fun row hrow => (hkeyed.nodup_actionKeys_iff row hrow).mpr (by decide)⟩

/-! ## A terminal called `state` -/

/-- One rule, for a terminal that is called like the key. -/
def stateRules : List RuleDef := [⟨"T", ["state"]⟩]

/-- The rules by number. -/
theorem ofDefs_stateRules : Grammar.ofDefs stateRules =
    .ofNames ["$", "state"] ["", "T"] (by decide) (by decide)
      [⟨⟨1⟩, #[.terminal ⟨1⟩]⟩] := by rfl

/-- **A row of actions may have the key `state` twice,** with the number of the state and the cell of the
terminal. -/
theorem exists_repeated_key : ∃ t, Tables.ofRules stateRules = .ok t ∧
    ∃ row, (ofTables t).actions[0]? = some row ∧ ¬ (rowToJson row).keys.Nodup ∧
      (rowToJson row).valuesAt "state" = [.string "0", .string "S2"] := by
  obtain ⟨t, ht, -, -, htable, -⟩ := Tables.exists_of_valid stateRules (by decide)
    (by unfold RuleDef.IsValid; decide) (by decide) (by decide)
  obtain ⟨g, hg, rfl⟩ := Tables.ofRules_eq_ok.mp ht
  have haug := Grammar.isAugmentation_of_augment hg
  have hfaithful := isFaithful_of_augment hg
  have hnames : g.terminals.toList = ["$", "state"] := haug.terminals.trans (by decide)
  have hx : ⟨1⟩ ∈ g.allTerminals := by
    rw [Grammar.mem_allTerminals, ← Numbering.length_toList, hnames]
    decide
  have hname : g.terminalName ⟨1⟩ = "state" := by
    unfold Grammar.terminalName
    rw [← Numbering.getElem?_toList, hnames]
    rfl
  have haction : (Tables.ofGrammar g).table.action? 0 ⟨1⟩ = some (.shift 2) := by
    rw [htable, ofDefs_stateRules]
    cbv
  obtain ⟨r, hr, -⟩ := Option.bind_eq_some_iff.mp haction
  have hrow : (ofTables (.ofGrammar g)).actions[0]? = some ⟨toString 0, actionCells g r⟩ := by
    rw [getElem?_actions, hr]
    rfl
  have hrowOf := hfaithful.actionRow 0 _ hrow
  have hcell := hfaithful.actionCell 0 _ hrow ⟨1⟩ hx
  rw [haction] at hcell
  refine ⟨.ofGrammar g, ht, _, hrow, ?_, ?_⟩
  · rw [nodup_keys_rowToJson hrowOf]
    show ¬ "state" ∉ g.terminals.toList
    simp [hnames]
  · exact valuesAt_state_of_column hrowOf (hname ▸ hcell)

end Sheet

end ShiftReduce
