import Std.Data.String.ToNat
import ShiftReduce.Proofs.Cells
import ShiftReduce.Sheet

/-! # The columns of a sheet

The symbols of a grammar have different names, and a name tells of which class its symbol is
(`Grammar.IsAugmentation.symbolName_inj`). So a row, which finds its cells by the names of the columns, has
the cell of each column (`get?_cellsOf`), and no cell takes the place of another one when the row is
filled (`OrderedMap.foldl_insert_eq`). The text of a cell tells what is in it (`Action.text_injective`). -/

namespace ShiftReduce

/-! ## Texts of cells -/

/-- The text of a goto cell that leads to a state. -/
def gotoText (i : Nat) : String := "I" ++ toString i

/-- No goto is written as an empty cell. -/
theorem gotoText_ne_empty (i : Nat) : gotoText i ≠ "" := by
  simp [gotoText]

/-- Different gotos are written differently. -/
theorem gotoText_injective : Function.Injective gotoText := by
  intro i j h
  simpa [gotoText, Nat.repr_inj] using h

namespace Action

/-- No action is written as an empty cell. -/
theorem text_ne_empty (a : Action) : a.text ≠ "" := by
  cases a <;> simp [text]

/-- **The text of an action tells which one it is.** -/
theorem text_injective : Function.Injective text := by
  intro a b h
  -- the first letter tells the kind of the action
  have hletters := congrArg String.toList h
  cases a with
  | shift i =>
    cases b with
    | shift j =>
      have hij : i = j := by simpa [text, Nat.repr_inj] using h
      rw [hij]
    | reduce _ => simp [text] at hletters
    | accept => simp [text] at hletters
  | reduce i =>
    cases b with
    | shift _ => simp [text] at hletters
    | reduce j =>
      have hij : i = j := by simpa [text, Nat.repr_inj] using h
      rw [hij]
    | accept => simp [text] at hletters
  | accept =>
    cases b with
    | shift _ => simp [text] at hletters
    | reduce _ => simp [text] at hletters
    | accept => rfl

end Action

/-- Where there may be nothing, the text tells what there is. -/
theorem getD_text_eq_iff {α : Type} {text : α → String} (hinj : Function.Injective text)
    (hne : ∀ a, text a ≠ "") {o : Option α} {a : α} : (o.map text).getD "" = text a ↔ o = some a := by
  cases o with
  | none => simpa using (hne a).symm
  | some b => simp [hinj.eq_iff]

/-! ## Maps without repeated keys -/

namespace OrderedMap

variable {κ α : Type} [DecidableEq κ]

/-- When no key comes twice, each entry is found by its key. -/
theorem get?_eq_some_iff {m : OrderedMap κ α} (h : m.keys.Nodup) {k : κ} {a : α} :
    m.get? k = some a ↔ (k, a) ∈ m.entries := by
  refine ⟨mem_entries_of_get?, fun hmem => ?_⟩
  obtain ⟨b, hb⟩ := exists_get?_iff.mpr (List.mem_map_of_mem (f := (·.1)) hmem)
  have hsame := List.inj_on_of_nodup_map h hmem (mem_entries_of_get? hb) rfl
  rw [hb, (Prod.mk.inj hsame).2]

/-- A key that is not there yet goes to the end with its value. -/
theorem insert_of_not_mem {m : OrderedMap κ α} {k : κ} (h : k ∉ m.keys) (a : α) :
    m.insert k a = ⟨m.entries ++ [(k, a)]⟩ := by
  obtain ⟨l⟩ := m
  unfold insert
  congr 1
  induction l with
  | nil => rfl
  | cons e l ih =>
    obtain ⟨k', a'⟩ := e
    have hne : k ≠ k' := fun heq => h (heq ▸ List.mem_cons_self ..)
    have hl : k ∉ (⟨l⟩ : OrderedMap κ α).keys := fun hmem => h (List.mem_cons_of_mem _ hmem)
    show (if k = k' then _ else _) = _
    rw [if_neg hne, ih hl]
    rfl

/-- **Setting entries with different keys one by one keeps all of them.** -/
theorem foldl_insert_eq {m : OrderedMap κ α} {l : List (κ × α)}
    (h : ((m.entries ++ l).map (·.1)).Nodup) :
    l.foldl (fun m e => m.insert e.1 e.2) m = ⟨m.entries ++ l⟩ := by
  induction l generalizing m with
  | nil => simp
  | cons e l ih =>
    have hnew : e.1 ∉ m.keys := by
      rw [List.map_append, List.nodup_append] at h
      exact fun hmem => h.2.2 _ hmem _ (List.mem_cons_self ..) rfl
    rw [List.foldl_cons, insert_of_not_mem hnew, ih]
    · simp
    · simpa using h

end OrderedMap

/-! ## Rows of cells -/

section Columns

variable {κ : Type} {columns : List κ} {name cell : κ → String}

/-- A row with a cell for each of some columns. -/
def cellsOf (columns : List κ) (name cell : κ → String) : OrderedMap String String :=
  ⟨columns.map fun x => (name x, cell x)⟩

/-- The cells have the names of the columns as their keys. -/
@[simp] theorem keys_cellsOf : (cellsOf columns name cell).keys = columns.map name := by
  simp [cellsOf, OrderedMap.keys, Function.comp_def]

/-- **When no name comes twice, a row has the cell of each column and no others.** -/
theorem get?_cellsOf (h : (columns.map name).Nodup) {column text : String} :
    (cellsOf columns name cell).get? column = some text ↔
      ∃ x ∈ columns, name x = column ∧ cell x = text := by
  rw [OrderedMap.get?_eq_some_iff (keys_cellsOf ▸ h)]
  simp [cellsOf]

/-- With different names every column has its own cell. -/
theorem get?_cellsOf_of_mem (h : (columns.map name).Nodup) {x : κ} (hx : x ∈ columns) :
    (cellsOf columns name cell).get? (name x) = some (cell x) :=
  (get?_cellsOf h).mpr ⟨x, hx, rfl, rfl⟩

end Columns

/-! ## Names -/

namespace Grammar

variable {g : Grammar}

/-- The names of the terminals are listed by their numbers. -/
theorem map_terminalName (g : Grammar) : g.allTerminals.map g.terminalName = g.terminals.toList := by
  refine List.ext_getElem (by simp [allTerminals]) fun i h h' => ?_
  have hvalue : g.terminals.value? i = some g.terminals.toList[i] := by
    rw [← Numbering.getElem?_toList, List.getElem?_eq_getElem h']
  simp [allTerminals, terminalName, hvalue]

/-- The names of the nonterminals are listed by their numbers. -/
theorem map_nonterminalName (g : Grammar) :
    g.allNonterminals.map g.nonterminalName = g.nonterminals.toList := by
  refine List.ext_getElem (by simp [allNonterminals]) fun i h h' => ?_
  have hvalue : g.nonterminals.value? i = some g.nonterminals.toList[i] := by
    rw [← Numbering.getElem?_toList, List.getElem?_eq_getElem h']
  simp [allNonterminals, nonterminalName, hvalue]

/-- Terminals with the same name are the same. -/
theorem terminalName_inj {x y : Terminal} (hx : x ∈ g.allTerminals) (hy : y ∈ g.allTerminals)
    (h : g.terminalName x = g.terminalName y) : x = y :=
  List.inj_on_of_nodup_map (g.map_terminalName ▸ g.terminals.nodup_toList) hx hy h

/-- Nonterminals with the same name are the same. -/
theorem nonterminalName_inj {x y : Nonterminal} (hx : x ∈ g.allNonterminals)
    (hy : y ∈ g.allNonterminals) (h : g.nonterminalName x = g.nonterminalName y) : x = y :=
  List.inj_on_of_nodup_map (g.map_nonterminalName ▸ g.nonterminals.nodup_toList) hx hy h

/-! ## Columns -/

/-- No terminal is listed twice. -/
theorem nodup_allTerminals (g : Grammar) : g.allTerminals.Nodup :=
  List.Nodup.of_map _ (g.map_terminalName ▸ g.terminals.nodup_toList)

/-- No nonterminal is listed twice. -/
theorem nodup_allNonterminals (g : Grammar) : g.allNonterminals.Nodup :=
  List.Nodup.of_map _ (g.map_nonterminalName ▸ g.nonterminals.nodup_toList)

/-- One element of a list and all the others are the whole list. -/
theorem cons_filter_ne_perm {α : Type} [DecidableEq α] {l : List α} (hl : l.Nodup) {a : α}
    (ha : a ∈ l) : (a :: l.filter (· ≠ a)).Perm l := by
  have hothers : l.filter (· ≠ a) = l.erase a := by
    rw [hl.erase_eq_filter]
    exact List.filter_congr fun x _ => by rw [bne, beq_eq_decide, decide_not]
  rw [hothers]
  exact (List.perm_cons_erase ha).symm

/-- The action table has a column for each terminal. -/
theorem actionColumns_perm (wf : g.WellFormed) : g.actionColumns.Perm g.allTerminals := by
  refine List.perm_append_comm.trans (cons_filter_ne_perm g.nodup_allTerminals ?_)
  exact mem_allTerminals.mpr wf.endOfInput_lt

/-- The goto table has a column for each nonterminal but the fresh start symbol. -/
theorem gotoColumns_perm (wf : g.WellFormed) :
    (Nonterminal.freshStart :: g.gotoColumns).Perm g.allNonterminals := by
  have hfresh : Nonterminal.freshStart ∈ g.allNonterminals := by
    rw [mem_allNonterminals]
    exact Nat.zero_lt_of_lt wf.hasSymbol_start.2
  refine List.Perm.trans (List.Perm.cons _ ?_) (cons_filter_ne_perm g.nodup_allNonterminals hfresh)
  exact List.filter_append_perm _ _

/-- Every terminal has a column. -/
theorem mem_actionColumns (wf : g.WellFormed) {x : Terminal} :
    x ∈ g.actionColumns ↔ x ∈ g.allTerminals := (actionColumns_perm wf).mem_iff

/-- Every nonterminal but the fresh start has a column. -/
theorem mem_gotoColumns {n : Nonterminal} :
    n ∈ g.gotoColumns ↔ n ≠ .freshStart ∧ n ∈ g.allNonterminals := by
  unfold gotoColumns
  simp only [List.mem_append, List.mem_filter]
  by_cases h : g.isDefined n = true <;> simp [h, and_comm]

/-- The columns of the action table have the names of the terminals. -/
theorem map_actionColumns_perm (wf : g.WellFormed) :
    (g.actionColumns.map g.terminalName).Perm g.terminals.toList := by
  rw [← map_terminalName]
  exact (actionColumns_perm wf).map _

/-- The columns of the goto table have the names of the nonterminals, the first one excepted. -/
theorem map_gotoColumns_perm (wf : g.WellFormed) :
    (g.gotoColumns.map g.nonterminalName).Perm g.nonterminals.toList.tail := by
  have hperm := (gotoColumns_perm wf).map g.nonterminalName
  rw [map_nonterminalName, List.map_cons] at hperm
  have hfirst : g.nonterminalName .freshStart = (g.nonterminals.toList[0]?).getD unknownName := by
    rw [Numbering.getElem?_toList]
    rfl
  cases hnames : g.nonterminals.toList with
  | nil =>
    rw [hnames] at hperm
    exact absurd hperm.length_eq (by simp)
  | cons first rest =>
    rw [hnames] at hperm hfirst
    rw [hfirst] at hperm
    exact hperm.cons_inv

/-- The columns of the actions have different names. -/
theorem nodup_map_actionColumns (wf : g.WellFormed) : (g.actionColumns.map g.terminalName).Nodup :=
  (map_actionColumns_perm wf).nodup_iff.mpr g.terminals.nodup_toList

/-- The columns of the gotos have different names. -/
theorem nodup_map_gotoColumns (wf : g.WellFormed) : (g.gotoColumns.map g.nonterminalName).Nodup :=
  (map_gotoColumns_perm wf).nodup_iff.mpr (g.nonterminals.nodup_toList.sublist (List.tail_sublist _))

end Grammar

/-! ## Classes -/

namespace Grammar.IsAugmentation

variable {g : Grammar} {defs : List RuleDef}

/-- Terminals are called what nonterminals are not. -/
theorem isNonterminalName_terminalName (h : g.IsAugmentation defs) {x : Terminal}
    (hx : x ∈ g.allTerminals) : isNonterminalName (g.terminalName x) = false := by
  have hmem := List.mem_map_of_mem (f := g.terminalName) hx
  rw [map_terminalName, h.terminals, terminalNames, List.mem_eraseDups, List.mem_cons,
    List.mem_flatMap] at hmem
  rcases hmem with hend | ⟨r, -, hr⟩
  · rw [hend]
    decide
  · simpa [isTerminalName] using (List.mem_filter.mp hr).2

/-- The fresh start has the name made for it. -/
theorem nonterminalName_freshStart (h : g.IsAugmentation defs) :
    g.nonterminalName .freshStart = startName defs := by
  unfold nonterminalName
  rw [← Numbering.getElem?_toList, h.nonterminals, nonterminalNames, List.cons_append,
    List.eraseDups_cons]
  rfl

/-- Nonterminals are called by single capital letters, the fresh start symbol excepted. -/
theorem isNonterminalName_nonterminalName (h : g.IsAugmentation defs) {n : Nonterminal}
    (hn : n ∈ g.allNonterminals) (hfresh : n ≠ .freshStart) :
    isNonterminalName (g.nonterminalName n) = true := by
  have hmem := List.mem_map_of_mem (f := g.nonterminalName) hn
  rw [map_nonterminalName, h.nonterminals, nonterminalNames, List.mem_eraseDups] at hmem
  rcases List.mem_append.mp hmem with hhead | hbody
  · rcases List.mem_cons.mp hhead with hstart | hhead
    · -- the name of the fresh start symbol is not given away again
      have hmem : Nonterminal.freshStart ∈ g.allNonterminals :=
        mem_allNonterminals.mpr (Nat.zero_lt_of_lt (mem_allNonterminals.mp hn))
      exact absurd (nonterminalName_inj hn hmem (hstart.trans h.nonterminalName_freshStart.symm)) hfresh
    · obtain ⟨r, hr, heq⟩ := List.mem_map.mp hhead
      rw [← heq]
      exact (h.valid r hr).1
  · obtain ⟨r, -, hr⟩ := List.mem_flatMap.mp hbody
    exact (List.mem_filter.mp hr).2

/-- The name of a symbol tells its class. -/
theorem isNonterminalName_symbolName (h : g.IsAugmentation defs) {x : Symbol} (hx : g.HasSymbol x) :
    isNonterminalName (g.symbolName x) = x.nonterminal?.isSome := by
  cases x with
  | terminal t => exact h.isNonterminalName_terminalName (mem_allTerminals.mpr hx.2)
  | nonterminal n => exact h.isNonterminalName_nonterminalName (mem_allNonterminals.mpr hx.2) hx.1

/-- **Different symbols have different names.** -/
theorem symbolName_inj (h : g.IsAugmentation defs) {x y : Symbol} (hx : g.HasSymbol x)
    (hy : g.HasSymbol y) (hname : g.symbolName x = g.symbolName y) : x = y := by
  have hclass := congrArg isNonterminalName hname
  rw [h.isNonterminalName_symbolName hx, h.isNonterminalName_symbolName hy] at hclass
  cases x with
  | terminal t =>
    cases y with
    | terminal u =>
      rw [terminalName_inj (mem_allTerminals.mpr hx.2) (mem_allTerminals.mpr hy.2) hname]
    | nonterminal m => cases hclass
  | nonterminal n =>
    cases y with
    | terminal u => cases hclass
    | nonterminal m =>
      rw [nonterminalName_inj (mem_allNonterminals.mpr hx.2) (mem_allNonterminals.mpr hy.2) hname]

end Grammar.IsAugmentation

end ShiftReduce
