import ShiftReduce.Proofs.JsonWriter
import ShiftReduce.Proofs.SheetColumns

/-! # Sheets as text

The text of a sheet is a text of the grammar in both layouts, and however it is read, its value is the sheet
(`Sheet.parse?_ofTables`). Nothing is lost: different sheets have different values
(`Sheet.toJson_injective`). -/

namespace ShiftReduce

open Json (Literal IsElement)

/-! ## Nothing is lost -/

/-- Different numbers are written differently. -/
theorem Json.ofNat_injective : Function.Injective (@Json.ofNat String) := by
  intro m n h
  simpa [Json.ofNat, Nat.repr_inj] using h

/-- Different lists of texts are written differently. -/
theorem Json.ofStrings_injective : Function.Injective (@Json.ofStrings String) := by
  intro l l' h
  have hstring : Function.Injective (@Json.string String) := fun s s' => Json.string.inj
  exact hstring.list_map (Json.array.inj h)

namespace Sheet

/-- Different transitions are written differently. -/
theorem transitionToJson_injective : Function.Injective transitionToJson := by
  rintro ⟨source, target, symbol⟩ ⟨source', target', symbol'⟩ h
  simp only [transitionToJson, Json.object.injEq, List.cons.injEq, Prod.mk.injEq, true_and,
    Json.string.injEq, and_true] at h
  obtain ⟨hsource, htarget, rfl⟩ := h
  rw [Json.ofNat_injective hsource, Json.ofNat_injective htarget]

/-- Different rows are written differently. -/
theorem rowToJson_injective : Function.Injective rowToJson := by
  rintro ⟨state, ⟨cells⟩⟩ ⟨state', ⟨cells'⟩⟩ h
  simp only [rowToJson, Json.object.injEq, List.cons.injEq, Prod.mk.injEq, true_and,
    Json.string.injEq] at h
  obtain ⟨rfl, hcells⟩ := h
  have hcell : Function.Injective fun cell : String × String => (cell.1, Json.string cell.2) := by
    rintro ⟨column, text⟩ ⟨column', text'⟩ heq
    simpa using heq
  rw [hcell.list_map hcells]

/-- **Different sheets have different values.** -/
theorem toJson_injective : Function.Injective toJson := by
  rintro ⟨states, transitions, actions, gotos⟩ ⟨states', transitions', actions', gotos'⟩ h
  simp only [toJson, Json.object.injEq, List.cons.injEq, Prod.mk.injEq, true_and, Json.array.injEq,
    and_true] at h
  obtain ⟨hstates, htransitions, hactions, hgotos⟩ := h
  rw [Json.ofStrings_injective.list_map hstates,
    transitionToJson_injective.list_map htransitions, rowToJson_injective.list_map hactions,
    rowToJson_injective.list_map hgotos]

/-! ## Writing and reading -/

/-- Every row can be written. -/
theorem isWritable_rowToJson (row : SheetRow) : Json.IsWritable (rowToJson row) := by
  refine .object fun m hm => ?_
  rcases List.mem_cons.mp hm with rfl | hm
  · exact .string row.state
  · obtain ⟨cell, -, rfl⟩ := List.mem_map.mp hm
    exact .string cell.2

/-- Every transition can be written. -/
theorem isWritable_transitionToJson (e : TransitionRow) : Json.IsWritable (transitionToJson e) := by
  refine .object fun m hm => ?_
  simp only [List.mem_cons, List.not_mem_nil, or_false] at hm
  rcases hm with rfl | rfl | rfl
  · exact Json.isWritable_ofNat e.source
  · exact Json.isWritable_ofNat e.target
  · exact .string e.symbol

/-- The elements of a list can be written when each of them can. -/
theorem isWritable_array_map {α : Type} {f : α → Json String} (h : ∀ a, Json.IsWritable (f a))
    (l : List α) : Json.IsWritable (.array (l.map f)) := by
  refine .array fun v hv => ?_
  obtain ⟨a, -, rfl⟩ := List.mem_map.mp hv
  exact h a

/-- **Every sheet can be written.** -/
theorem isWritable_toJson (s : Sheet) : Json.IsWritable s.toJson := by
  refine .object fun m hm => ?_
  simp only [List.mem_cons, List.not_mem_nil, or_false] at hm
  rcases hm with rfl | rfl | rfl | rfl
  · exact isWritable_array_map Json.isWritable_ofStrings s.states
  · exact isWritable_array_map isWritable_transitionToJson s.transitions
  · exact isWritable_array_map isWritable_rowToJson s.actions
  · exact isWritable_array_map isWritable_rowToJson s.gotos

/-- **The text of a sheet is read back**, in any layout and by any reader of the grammar. -/
theorem texts?_of_isElement {layout : Json.Layout} (hl : layout.IsBlank) (s : Sheet)
    {v : Json Literal} (h : IsElement v (s.toJson.write layout 0).toList) :
    v.texts? = some s.toJson := by
  have helement := Json.isElement_write hl s.isWritable_toJson
  rw [h.unique helement]
  exact Json.texts?_literals s.toJson

/-- **The text of a sheet loses nothing.** In both layouts it is a text of the grammar, and however it is
read, it has the same value: an object with the parts of the sheet, which are the items by state, the
transitions, and the rows of both tables. A row begins with the state and goes on with the cells in the order
of the columns. No other sheet has this value. -/
theorem parse?_ofTables (t : Tables) : ∃ value : Json String,
    (∀ text ∈ [(ofTables t).toJson.compact, (ofTables t).toJson.indented],
      (∃ v, IsElement v text.toList) ∧
        (∀ v : Json Literal, IsElement v text.toList → v.texts? = some value) ∧
          Json.parse? text = some value) ∧
    value = .object [
      ("states", .array ((ofTables t).states.map fun items => .array (items.map .string))),
      ("transitions", .array ((ofTables t).transitions.map fun e => .object [
        ("from", .number (toString e.source)), ("to", .number (toString e.target)),
        ("symbol", .string e.symbol)])),
      ("actionTable", .array ((ofTables t).actions.map fun row =>
        .object (("state", .string row.state) ::
          row.cells.entries.map fun cell => (cell.1, .string cell.2)))),
      ("gotoTable", .array ((ofTables t).gotos.map fun row =>
        .object (("state", .string row.state) ::
          row.cells.entries.map fun cell => (cell.1, .string cell.2))))] ∧
    (∀ row ∈ (ofTables t).actions,
      row.cells.keys = t.grammar.actionColumns.map t.grammar.terminalName) ∧
    (∀ row ∈ (ofTables t).gotos,
      row.cells.keys = t.grammar.gotoColumns.map t.grammar.nonterminalName) ∧
    ∀ s : Sheet, s.toJson = value → s = ofTables t := by
  have hwritable := isWritable_toJson (ofTables t)
  have hread {layout : Json.Layout} (hl : layout.IsBlank) :
      (∃ v, IsElement v ((ofTables t).toJson.write layout 0).toList) ∧
        (∀ v : Json Literal, IsElement v ((ofTables t).toJson.write layout 0).toList →
          v.texts? = some (ofTables t).toJson) ∧
        Json.parse? ((ofTables t).toJson.write layout 0) = some (ofTables t).toJson :=
    ⟨⟨_, Json.isElement_write hl hwritable⟩, fun v => texts?_of_isElement hl _,
      Json.parse?_write hl hwritable⟩
  refine ⟨(ofTables t).toJson, fun text htext => ?_, rfl, fun row hrow => ?_, fun row hrow => ?_,
    fun s h => toJson_injective h⟩
  · rcases List.mem_cons.mp htext with rfl | htext
    · exact hread Json.Layout.isBlank_compact
    · rw [List.mem_singleton.mp htext]
      exact hread Json.Layout.isBlank_indented
  · obtain ⟨⟨r, i⟩, -, rfl⟩ := List.mem_map.mp hrow
    exact keys_cellsOf
  · obtain ⟨⟨r, i⟩, -, rfl⟩ := List.mem_map.mp hrow
    exact keys_cellsOf

end Sheet

end ShiftReduce
