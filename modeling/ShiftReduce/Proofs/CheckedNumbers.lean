import ShiftReduce.Proofs.Augmentation
import ShiftReduce.Proofs.FirstFaults
import Mathlib.Data.List.Perm.Subperm

/-! # Nonterminals never run out of numbers

When a rule list is numbered, only terminals and rules are held against the capacity. Here it is
numbered once more with every number checked, those of nonterminals too, and with the start symbol
looked up at the end (`Grammar.checkedAugment`). But nonterminals are written as single capitals, so
that there are `26` of them at most besides the fresh start symbol (`Draft.Fits.size_nonterminals_le`):
the check never fails, and nothing else changes (`Grammar.checkedAugment_eq`). -/

namespace ShiftReduce

/-- Why a rule list is not numbered when all numbers are checked. -/
inductive Shortfall where
  /-- the list is rejected -/
  | rejected (e : GrammarError)
  /-- there is no number left for a nonterminal -/
  | nonterminals
  deriving DecidableEq

/-! ## Numbering with every number checked -/

namespace Draft

/-- The nonterminal with a name, numbered if it is new and there is a number left. -/
def checkedNonterminal (d : Draft) (name : String) : Except Shortfall (Nonterminal × Draft) :=
  let (i, nonterminals) := d.nonterminals.intern name
  if i ≤ capacity then .ok (⟨i⟩, { d with nonterminals := nonterminals }) else .error .nonterminals

/-- The symbol with a name. -/
def checkedSymbol (d : Draft) (name : String) : Except Shortfall (Symbol × Draft) :=
  if isNonterminalName name then do
    let (n, d) ← d.checkedNonterminal name
    .ok (.nonterminal n, d)
  else (d.symbol name).mapError .rejected

/-- The symbols with the names in a body, behind those read before. -/
def checkedSymbols (d : Draft) (before : Array Symbol) :
    List String → Except Shortfall (Array Symbol × Draft)
  | [] => .ok (before, d)
  | name :: rest => do
    let (s, d) ← d.checkedSymbol name
    d.checkedSymbols (before.push s) rest

/-- Numbers the heads of all rules. -/
def checkedHeads (d : Draft) : List String → Except Shortfall Draft
  | [] => .ok d
  | head :: rest => do
    let (_, d) ← d.checkedNonterminal head
    d.checkedHeads rest

/-- Reads one more rule, its head first. -/
def checkedAddRule (d : Draft) (r : RuleDef) : Except Shortfall Draft := do
  let (left, d) ← d.checkedNonterminal r.head
  let (right, d) ← d.checkedSymbols #[] r.body
  if d.rules.size ≤ capacity then .ok { d with rules := d.rules.push ⟨left, right⟩ }
  else .error (.rejected (.tooMany .rules))

/-- Reads all rules of a list. -/
def checkedAddRules (d : Draft) : List RuleDef → Except Shortfall Draft
  | [] => .ok d
  | r :: rest => do
    let d ← d.checkedAddRule r
    d.checkedAddRules rest

end Draft

/-- The grammar of a draft in which all rules are read. -/
def Draft.toGrammar (start : Nonterminal) : Draft → Grammar
  | ⟨terminals, nonterminals, rules⟩ => { terminals, nonterminals, rules, start }

/-- The grammar of a rule list, with every number checked. -/
def Grammar.checkedAugment (defs : List RuleDef) : Except Shortfall Grammar :=
  match defs with
  | [] => .error (.rejected .noRules)
  | first :: _ =>
    match firstFault? 0 defs with
    | some e => .error (.rejected e)
    | none => do
      let d := Draft.ofHeads (freshName (namesOf defs) first.head) []
      let d ← d.checkedHeads (defs.map (·.head))
      let d ← d.checkedAddRules defs
      let (start, d) ← d.checkedNonterminal first.head
      .ok (d.toGrammar start)

/-! ## Single capitals -/

/-- All names of nonterminals. -/
def capitals : List String := (List.range 26).map fun i => String.ofList [Char.ofNat ('A'.toNat + i)]

/-- A capital is one of the twenty-six. -/
theorem IsCapital.mem_capitals {name : String} (h : IsCapital name) : name ∈ capitals := by
  obtain ⟨c, hc, hA, hZ⟩ := h
  have hlow : 'A'.toNat ≤ c.toNat := hA
  have hhigh : c.toNat ≤ 'Z'.toNat := hZ
  have hplace : c.toNat - 'A'.toNat < 26 := by
    have hspan : 'Z'.toNat = 'A'.toNat + 25 := rfl
    omega
  refine List.mem_map.mpr ⟨c.toNat - 'A'.toNat, List.mem_range.mpr hplace, ?_⟩
  rw [Nat.add_sub_cancel' hlow, Char.ofNat_toNat, ← hc, String.ofList_toList]

namespace Draft

/-- A draft has numbers for all that it holds: nonterminals other than the fresh one are capitals, and
there are not too many terminals. -/
structure Fits (fresh : String) (d : Draft) : Prop where
  /-- nonterminals are written as single capitals -/
  capitals : ∀ name ∈ d.nonterminals.toList, name = fresh ∨ IsCapital name
  /-- the terminals are within the capacity -/
  terminals : d.terminals.size ≤ capacity + 1

namespace Fits

variable {fresh : String} {d : Draft}

/-- **There are at most `27` nonterminals.** -/
theorem size_nonterminals_le (h : d.Fits fresh) : d.nonterminals.size ≤ 27 := by
  have hsub : d.nonterminals.toList ⊆ fresh :: ShiftReduce.capitals := by
    intro name hname
    rcases h.capitals name hname with rfl | hcapital
    · exact List.mem_cons_self ..
    · exact List.mem_cons_of_mem _ hcapital.mem_capitals
  rw [← Numbering.length_toList]
  exact (List.subperm_of_subset d.nonterminals.nodup_toList hsub).length_le

/-- Registering a name adds capitals only. -/
theorem intern (h : d.Fits fresh) {name : String}
    (room : (d.intern name).terminals.size ≤ capacity + 1) : (d.intern name).Fits fresh where
  capitals := by
    intro name' hname'
    rw [nonterminals_intern d.nonterminals.toList_eq_eraseDups, List.mem_eraseDups,
      List.mem_append] at hname'
    rcases hname' with hold | hnew
    · exact h.capitals name' hold
    · exact .inr (isNonterminalName_iff.mp (List.mem_filter.mp hnew).2)
  terminals := room

/-- Numbering names keeps a draft fitting, as long as the terminals stay within the capacity. -/
theorem internAll (h : d.Fits fresh) {names : List String}
    (room : (d.internAll names).terminals.size ≤ capacity + 1) : (d.internAll names).Fits fresh := by
  induction names generalizing d with
  | nil => exact h
  | cons name names ih =>
    exact ih (h.intern (Nat.le_trans (size_terminals_le_internAll _ names) room)) room

/-! ## The check never fails -/

/-- Registering a capital adds no terminal. -/
theorem intern_capital (h : d.Fits fresh) {name : String} (hname : IsCapital name) :
    (d.intern name).Fits fresh := by
  refine h.intern ?_
  simpa [Draft.intern, isNonterminalName_iff.mpr hname] using h.terminals

/-- **A capital always gets a number.** -/
theorem checkedNonterminal_eq (h : d.Fits fresh) {name : String} (hname : IsCapital name) :
    d.checkedNonterminal name = .ok (⟨(d.nonterminals.intern name).1⟩, d.intern name) := by
  have hclass := isNonterminalName_iff.mpr hname
  have hsize : (d.nonterminals.intern name).2.size ≤ 27 := by
    simpa [Draft.intern, hclass] using (h.intern_capital hname).size_nonterminals_le
  -- the number is below the number of nonterminals
  have hlt : (d.nonterminals.intern name).1 < (d.nonterminals.intern name).2.size :=
    (Array.getElem?_eq_some_iff.mp (Numbering.value?_intern d.nonterminals name)).1
  have hroom : (d.nonterminals.intern name).1 ≤ capacity := by
    simp only [capacity]
    omega
  simp [checkedNonterminal, Draft.intern, hclass, hroom]

/-- A symbol of a fitting draft is found with the checks as it is without them. -/
theorem checkedSymbol_eq (h : d.Fits fresh) (name : String) :
    d.checkedSymbol name = (d.symbol name).mapError .rejected := by
  unfold checkedSymbol
  split
  · next hname =>
    rw [h.checkedNonterminal_eq (isNonterminalName_iff.mp hname)]
    unfold symbol Draft.intern
    simp only [hname, if_true]
    rfl
  · rfl

/-- The symbols of a body are found with the checks as they are without them. -/
theorem checkedSymbols_eq (h : d.Fits fresh) (before : Array Symbol) (names : List String) :
    d.checkedSymbols before names = (d.symbols before names).mapError .rejected := by
  induction names generalizing d before with
  | nil => rfl
  | cons name names ih =>
    rw [checkedSymbols, symbols, h.checkedSymbol_eq, symbol_eq h.terminals]
    by_cases room : (d.intern name).terminals.size ≤ capacity + 1
    · rw [if_pos room]
      exact ih (h.intern room) _
    · rw [if_neg room]
      rfl

/-- A rule whose head has a number is read as without the check. -/
theorem checkedAddRule_eq (h : d.Fits fresh) {r : RuleDef} (hr : IsCapital r.head)
    (hhead : r.head ∈ d.nonterminals.toList) :
    d.checkedAddRule r = (d.addRule r).mapError .rejected := by
  obtain ⟨i, hi⟩ := Numbering.mem_toList.mp hhead
  have hleft : d.checkedNonterminal r.head = .ok (⟨i⟩, d) := by
    rw [h.checkedNonterminal_eq hr]
    simp [Draft.intern, isNonterminalName_iff.mpr hr, Numbering.intern_of_value? hi]
  -- the head keeps its number while the body is read
  have hplace : (d.internAll r.body).nonterminals.toList.idxOf r.head = i := by
    rw [idxOf_eq_of_isPrefix (nonterminals_prefix_internAll d r.body) hhead,
      Numbering.idxOf_of_value? hi]
  have hread : d.checkedAddRule r = (d.checkedSymbols #[] r.body >>= fun p =>
      if p.2.rules.size ≤ capacity then .ok { p.2 with rules := p.2.rules.push ⟨⟨i⟩, p.1⟩ }
      else .error (.rejected (.tooMany .rules))) := by
    simp only [checkedAddRule, hleft]
    rfl
  rw [hread, h.checkedSymbols_eq, symbols_eq h.terminals, addRule_eq h.terminals hhead]
  by_cases room : (d.internAll r.body).terminals.size ≤ capacity + 1
  · have hbind (p : Array Symbol × Draft) (f : Array Symbol × Draft → Except Shortfall Draft) :
        (Except.mapError Shortfall.rejected (.ok p) >>= f) = f p := rfl
    rw [if_pos room, if_pos room, hbind]
    simp only [rules_internAll, Array.empty_append, Draft.ruleOf, ShiftReduce.ruleOf, hplace]
    by_cases hrules : d.rules.size ≤ capacity
    · rw [if_pos hrules, if_pos hrules]
      rfl
    · rw [if_neg hrules, if_neg hrules]
      rfl
  · rw [if_neg room, if_neg room]
    rfl

/-- What is read behind a draft fits again. -/
theorem of_addRule (h : d.Fits fresh) {r : RuleDef} (hhead : r.head ∈ d.nonterminals.toList)
    {e : Draft} (he : d.addRule r = .ok e) :
    e.Fits fresh ∧ d.nonterminals.toList ⊆ e.nonterminals.toList := by
  rw [addRule_eq h.terminals hhead] at he
  split at he
  · next room =>
    split at he
    · cases he
      have hfits := h.internAll room
      exact ⟨⟨hfits.capitals, hfits.terminals⟩, (nonterminals_prefix_internAll d r.body).subset⟩
    · cases he
  · cases he

/-- **The rules are added with the checks as they are without them.** -/
theorem checkedAddRules_eq (h : d.Fits fresh) {defs : List RuleDef}
    (hheads : ∀ r ∈ defs, IsCapital r.head ∧ r.head ∈ d.nonterminals.toList) :
    d.checkedAddRules defs = (d.addRules defs).mapError .rejected := by
  induction defs generalizing d with
  | nil => rfl
  | cons r rest ih =>
    obtain ⟨⟨hr, hhead⟩, hrest⟩ := List.forall_mem_cons.mp hheads
    rw [checkedAddRules, addRules, h.checkedAddRule_eq hr hhead]
    cases he : d.addRule r with
    | error e => rfl
    | ok e =>
      obtain ⟨hfits, hsub⟩ := h.of_addRule hhead he
      exact ih hfits fun r' hr' => ⟨(hrest r' hr').1, hsub (hrest r' hr').2⟩

/-- All heads get numbers. -/
theorem checkedHeads_eq (h : d.Fits fresh) {heads : List String}
    (hheads : ∀ name ∈ heads, IsCapital name) :
    d.checkedHeads heads =
      .ok { d with nonterminals := heads.foldl (fun t name => (t.intern name).2) d.nonterminals } := by
  induction heads generalizing d with
  | nil => rfl
  | cons name heads ih =>
    obtain ⟨hname, hrest⟩ := List.forall_mem_cons.mp hheads
    rw [checkedHeads, h.checkedNonterminal_eq hname]
    refine (ih (h.intern_capital hname) hrest).trans ?_
    simp [Draft.intern, isNonterminalName_iff.mpr hname]

end Fits

/-- Before the rules are read, the heads are the only nonterminals besides the fresh one. -/
theorem fits_ofHeads (fresh : String) {heads : List String} (hheads : ∀ name ∈ heads, IsCapital name) :
    (ofHeads fresh heads).Fits fresh where
  capitals := by
    intro name hname
    rw [nonterminals_ofHeads, List.mem_eraseDups] at hname
    rcases List.mem_cons.mp hname with hfresh | hhead
    · exact .inl hfresh
    · exact .inr (hheads name hhead)
  terminals := by
    rw [← Numbering.length_toList, terminals_ofHeads]
    decide

/-- A nonterminal that has a number keeps it. -/
theorem checkedNonterminal_of_value? {d : Draft} {name : String} {i : Nat}
    (hi : d.nonterminals.value? i = some name) (room : i ≤ capacity) :
    d.checkedNonterminal name = .ok (⟨i⟩, d) := by
  simp [checkedNonterminal, Numbering.intern_of_value? hi, room]

end Draft

/-! ## Rule lists without faults -/

/-- **Without faults the rules are read one after the other.** -/
theorem Grammar.augment_eq {defs : List RuleDef} (nonempty : defs ≠ [])
    (valid : ∀ r ∈ defs, r.IsValid) :
    Grammar.augment defs = ((initialDraft defs).addRules defs).map (·.toGrammar ⟨1⟩) := by
  cases defs with
  | nil => exact absurd rfl nonempty
  | cons first rest =>
    have hinitial : Draft.ofHeads (freshName (namesOf (first :: rest)) first.head)
        ((first :: rest).map (·.head)) = initialDraft (first :: rest) := rfl
    simp only [augment, firstFault?_eq_none.mpr valid, hinitial]
    cases (initialDraft (first :: rest)).addRules (first :: rest) <;> rfl

/-- Without faults the check only comes back to the start symbol. -/
theorem Grammar.checkedAugment_of_valid {first : RuleDef} {rest : List RuleDef}
    (valid : ∀ r ∈ first :: rest, r.IsValid) :
    Grammar.checkedAugment (first :: rest) =
      (((initialDraft (first :: rest)).addRules (first :: rest)).mapError .rejected >>= fun d =>
        d.checkedNonterminal first.head >>= fun p => .ok (p.2.toGrammar p.1)) := by
  have hheads : ∀ name ∈ (first :: rest).map (·.head), IsCapital name := by
    intro name hname
    obtain ⟨r, hr, rfl⟩ := List.mem_map.mp hname
    exact isNonterminalName_iff.mp (valid r hr).1
  have hnumbered : (Draft.ofHeads (startName (first :: rest)) []).checkedHeads
      ((first :: rest).map (·.head)) = .ok (initialDraft (first :: rest)) :=
    Draft.Fits.checkedHeads_eq (Draft.fits_ofHeads _ (by simp)) hheads
  have hread : (initialDraft (first :: rest)).checkedAddRules (first :: rest) =
      ((initialDraft (first :: rest)).addRules (first :: rest)).mapError .rejected :=
    (Draft.fits_ofHeads _ hheads).checkedAddRules_eq
      fun r hr => ⟨hheads _ (List.mem_map_of_mem hr), head_mem_initialDraft hr⟩
  simp only [checkedAugment, firstFault?_eq_none.mpr valid]
  rw [← hread]
  exact congrArg (· >>= _) hnumbered

/-- **Numbers of nonterminals need no check.** -/
theorem Grammar.checkedAugment_eq (defs : List RuleDef) :
    Grammar.checkedAugment defs = (Grammar.augment defs).mapError .rejected := by
  cases defs with
  | nil => rfl
  | cons first rest =>
    cases hfault : firstFault? 0 (first :: rest) with
    | some e => simp [checkedAugment, augment, hfault, Except.mapError]
    | none =>
      have valid := firstFault?_eq_none.mp hfault
      have haugment := augment_eq (List.cons_ne_nil first rest) valid
      rw [checkedAugment_of_valid valid, haugment]
      cases hd : (initialDraft (first :: rest)).addRules (first :: rest) with
      | error e => rfl
      | ok d =>
        -- the start symbol is found at its number
        rw [hd] at haugment
        have hvalue : d.nonterminals.value? 1 = some first.head :=
          (isAugmentation_of_augment haugment).value?_one
        have hstart : d.checkedNonterminal first.head = .ok (⟨1⟩, d) :=
          Draft.checkedNonterminal_of_value? hvalue (by decide)
        calc (d.checkedNonterminal first.head >>= fun p => .ok (p.2.toGrammar p.1))
            = .ok (d.toGrammar ⟨1⟩) := by rw [hstart]; rfl

/-- **Nonterminals never run out of numbers.** -/
theorem Grammar.checkedAugment_ne_nonterminals (defs : List RuleDef) :
    Grammar.checkedAugment defs ≠ .error .nonterminals := by
  rw [checkedAugment_eq]
  cases Grammar.augment defs <;> simp [Except.mapError]

end ShiftReduce
