import Mathlib.Data.Finset.Card
import ShiftReduce.Proofs.ChangeFlags
import ShiftReduce.Proofs.FirstOfSequences
import ShiftReduce.Proofs.Rejections
import ShiftReduce.Proofs.SheetColumns

/-! # How many passes there are

The loops for `FIRST` and `FOLLOW` do not compare whole tables. An entry that is extended tells by its size
whether it has grown (`OrderedMap.extend`), a nonterminal that can vanish tells whether it was known to
(`SymbolSet.note`), and a pass ORs these answers, although its steps read what the steps before them have
changed (`FirstTable.reportPass`, `FollowSets.reportPass`). The answers are right
(`FirstTable.reports_rule`, `FollowSets.reports_occurrence`), so both loops end, and they end in the sets
of the grammar. Each pass but the last adds something, and the names of a rule list say how much there is
to add (`Grammar.HasShortLoops`). -/

namespace ShiftReduce

/-! ## Tables that grow -/

section Growth

variable {κ σ α : Type} [Numbered σ] [DecidableEq κ]

/-- A set is below those that have all its members. -/
instance : Preorder (SymbolSet σ) where
  le s t := ∀ a : σ, a ∈ s → a ∈ t
  le_refl _ _ h := h
  le_trans _ _ _ hst htu a ha := htu a (hst a ha)

/-- A map is below those that have a value above its own at each of its keys. -/
instance [Preorder α] : Preorder (OrderedMap κ α) where
  le m m' := ∀ k a, m.get? k = some a → ∃ b, m'.get? k = some b ∧ a ≤ b
  le_refl _ _ a ha := ⟨a, ha, le_refl a⟩
  le_trans _ _ _ hle hle' k a ha := by
    obtain ⟨b, hb, hab⟩ := hle k a ha
    obtain ⟨c, hc, hbc⟩ := hle' k b hb
    exact ⟨c, hc, hab.trans hbc⟩

/-- A union contains its first set. -/
theorem SymbolSet.le_union (s t : SymbolSet σ) : s ≤ s ∪ t := fun _ ha =>
  SymbolSet.mem_union.mpr (Or.inl ha)

/-- Making a value greater makes the map greater. -/
theorem OrderedMap.le_modify [Preorder α] (m : OrderedMap κ α) (k : κ) {f : α → α}
    (h : ∀ a, a ≤ f a) : m ≤ m.modify k f := by
  intro k' a ha
  by_cases hk : k' = k
  · exact ⟨f a, by rw [get?_modify, if_pos hk, ha, Option.map_some], h a⟩
  · exact ⟨a, by rw [get?_modify, if_neg hk, ha], le_refl a⟩

end Growth

/-! ## Extending one entry -/

section Extend

variable {κ σ : Type} [Numbered σ] [DecidableEq κ]

namespace SymbolSet

/-- Adds a symbol of which something holds, and reports whether it is new. -/
def note (s : SymbolSet σ) (a : σ) (holds : Bool) : SymbolSet σ × Bool :=
  if holds then (s.insert a, decide (a ∉ s)) else (s, false)

/-- A symbol is in the set afterwards when it was before, or is the one of which something holds. -/
theorem mem_note {s : SymbolSet σ} {a b : σ} {holds : Bool} :
    b ∈ (s.note a holds).1 ↔ b ∈ s ∨ b = a ∧ holds = true := by
  unfold note
  cases holds with
  | true => simp [or_comm]
  | false => simp

/-- What is reported as new is a symbol of which something holds and that was not there. -/
theorem snd_note_iff {s : SymbolSet σ} {a : σ} {holds : Bool} :
    (s.note a holds).2 = true ↔ holds = true ∧ a ∉ s := by
  unfold note
  cases holds <;> simp

/-- **Noting a symbol reports exactly the changes of the set.** -/
theorem snd_note_iff_ne {s : SymbolSet σ} {a : σ} {holds : Bool} :
    (s.note a holds).2 = true ↔ (s.note a holds).1 ≠ s := by
  rw [snd_note_iff]
  constructor
  · rintro ⟨hholds, ha⟩ hsame
    exact ha (hsame ▸ mem_note.mpr (Or.inr ⟨rfl, hholds⟩))
  · intro hne
    by_contra hold
    refine hne (ext fun b => mem_note.trans (or_iff_left_of_imp ?_))
    rintro ⟨rfl, hholds⟩
    exact not_not.mp (not_and.mp hold hholds)

/-- A union with nothing new is as large as the set, and only that. -/
theorem size_union_eq_iff {s t : SymbolSet σ} : (s ∪ t).size = s.size ↔ s ∪ t = s := by
  refine ⟨fun hsize => ?_, fun h => by rw [h]⟩
  have hsubset : s.toList ⊆ (s ∪ t).toList := fun a ha =>
    mem_toList.mpr (mem_union.mpr (Or.inl (mem_toList.mp ha)))
  -- as many members as the union has, and none that it lacks
  have hperm := (List.subperm_of_subset s.nodup_toList hsubset).perm_of_length_le
    (Nat.le_of_eq hsize)
  exact ext fun a => by rw [← mem_toList, ← hperm.mem_iff, mem_toList]

end SymbolSet

namespace OrderedMap

/-- Adds to the set at a key that has one, and reports whether that made the set larger. -/
def extend (m : OrderedMap κ (SymbolSet σ)) (k : κ) (added : SymbolSet σ) :
    OrderedMap κ (SymbolSet σ) × Bool :=
  (m.modify k (· ∪ added), (m.get? k).any fun set => (set ∪ added).size != set.size)

/-- When no key comes twice, changing a value changes nothing just when the value stays the same. -/
theorem modify_eq_self_iff {α : Type} {m : OrderedMap κ α} (h : m.keys.Nodup) {k : κ} {f : α → α} :
    m.modify k f = m ↔ ∀ a, m.get? k = some a → f a = a := by
  constructor
  · intro hsame a ha
    have hget := congrArg (·.get? k) hsame
    simpa only [get?_modify, if_true, ha, Option.map_some, Option.some.injEq] using hget
  · intro hsame
    have hentry : ∀ e ∈ m.entries, (if e.1 = k then (e.1, f e.2) else e) = id e := by
      rintro ⟨k', a⟩ he
      by_cases hk : k' = k
      · -- the entry at the key is the one that is found there
        have hget : m.get? k = some a := (get?_eq_some_iff h).mpr (hk ▸ he)
        rw [if_pos hk, hsame a hget, id]
      · exact if_neg hk
    exact congrArg OrderedMap.mk ((List.map_congr_left hentry).trans (List.map_id _))

/-- A report is a change of the size of the set, which is a change of the set. -/
theorem snd_extend_iff {m : OrderedMap κ (SymbolSet σ)} {k : κ} {added : SymbolSet σ} :
    (m.extend k added).2 = true ↔ ∃ set, m.get? k = some set ∧ set ∪ added ≠ set := by
  unfold extend
  rw [Option.any_eq_true]
  simp only [bne_iff_ne, ne_eq, SymbolSet.size_union_eq_iff]

/-- **Extending an entry reports exactly the changes of the map.** -/
theorem snd_extend_iff_ne {m : OrderedMap κ (SymbolSet σ)} (h : m.keys.Nodup) {k : κ}
    {added : SymbolSet σ} : (m.extend k added).2 = true ↔ (m.extend k added).1 ≠ m := by
  rw [snd_extend_iff, extend, Ne, modify_eq_self_iff h]
  simp only [not_forall, exists_prop]

end OrderedMap

end Extend

/-! ## The loop for `FIRST` -/

/-- What the loop for `FIRST` works on: the nonterminals that can vanish are kept apart from the
terminals. -/
structure FirstTable where
  /-- the terminals of each nonterminal that has rules -/
  sets : OrderedMap Nonterminal TerminalSet
  /-- the nonterminals that are known to vanish -/
  nullables : SymbolSet Nonterminal

namespace FirstTable

variable {g : Grammar}

/-- A table is below those that have all that is known in it. -/
instance : Preorder FirstTable := Preorder.lift fun t => (t.sets, t.nullables)

/-- The table as `FIRST` sets. -/
def view (t : FirstTable) : FirstSets :=
  ⟨⟨t.sets.entries.map fun e => (e.1, ⟨e.2, decide (e.1 ∈ t.nullables)⟩)⟩⟩

/-- Adds what a walk over the body of a rule finds to what is known of its head. -/
def reportRule (r : Rule) (t : FirstTable) : FirstTable × Bool :=
  let found := t.view.walk ∅ r.right.toList
  let (sets, grew) := t.sets.extend r.left found.terminals
  let (nullables, new) := t.nullables.note r.left found.nullable
  (⟨sets, nullables⟩, grew || new)

/-- One pass over rules. -/
def reportPass (rules : List Rule) : FirstTable → FirstTable × Bool :=
  Flagged.forEach reportRule rules

/-- Every nonterminal with a rule has an empty set, and none is known to vanish. -/
def initial (rules : List Rule) : FirstTable := ⟨.ofKeys (rules.map (·.left)).eraseDups ∅, ∅⟩

/-! ### The table as `FIRST` sets -/

/-- The entry of a nonterminal has its set and whether it is among the nullable ones. -/
theorem get?_view (t : FirstTable) (n : Nonterminal) :
    t.view.get? n = (t.sets.get? n).map fun set => ⟨set, decide (n ∈ t.nullables)⟩ := by
  obtain ⟨⟨l⟩, nullables⟩ := t
  unfold view FirstSets.get? OrderedMap.get?
  induction l with
  | nil => rfl
  | cons e l ih =>
    rw [List.map_cons, OrderedMap.lookup, OrderedMap.lookup]
    split
    · next hn => rw [hn, Option.map_some]
    · exact ih

/-- The entries stand under the keys of the sets. -/
theorem keys_view (t : FirstTable) : t.view.entries.keys = t.sets.keys := by
  unfold view OrderedMap.keys
  rw [List.map_map]
  rfl

/-- At the start nothing is known in either form. -/
theorem view_initial (rules : List Rule) : (initial rules).view = FirstSets.initial rules := by
  unfold view initial FirstSets.initial OrderedMap.ofKeys First.none
  rw [List.map_map]
  simp [Function.comp_def]

/-- A rule does to the table what it does to the `FIRST` sets. -/
theorem view_reportRule (r : Rule) (t : FirstTable) :
    (reportRule r t).1.view = t.view.addRule r := by
  unfold reportRule FirstSets.addRule
  rw [FirstSets.walk_empty]
  generalize t.view.ofSequence r.right.toList = found
  refine congrArg (FirstSets.mk ∘ OrderedMap.mk) ?_
  show ((t.sets.entries.map _).map _) = (t.sets.entries.map _).map _
  rw [List.map_map, List.map_map]
  refine List.map_congr_left fun e _ => ?_
  by_cases he : e.1 = r.left
  · simp [he, First.join, SymbolSet.mem_note]
  · simp [he, SymbolSet.mem_note]

/-- A pass does to the table what it does to the `FIRST` sets. -/
theorem view_reportPass (rules : List Rule) (t : FirstTable) :
    (reportPass rules t).1.view = FirstSets.pass rules t.view := by
  unfold reportPass FirstSets.pass
  rw [Flagged.fst_forEach]
  exact (List.foldl_hom view fun t r => (view_reportRule r t).symm).symm

/-- A rule takes nothing away. -/
theorem le_reportRule (r : Rule) (t : FirstTable) : t ≤ (reportRule r t).1 := by
  have hsets := t.sets.le_modify r.left fun set =>
    set.le_union (t.view.walk ∅ r.right.toList).terminals
  exact ⟨hsets, fun _ hn => SymbolSet.mem_note.mpr (Or.inl hn)⟩

/-! ### Reports -/

/-- A report is one of the two parts of the table. -/
theorem snd_reportRule_iff {r : Rule} {t : FirstTable} : (reportRule r t).2 = true ↔
    (t.sets.extend r.left (t.view.ofSequence r.right.toList).terminals).2 = true ∨
      (t.nullables.note r.left (t.view.ofSequence r.right.toList).nullable).2 = true := by
  unfold reportRule
  rw [FirstSets.walk_empty]
  exact Bool.or_eq_true_iff

/-- Nothing is reported that the `FIRST` sets hold already. -/
theorem not_snd_reportRule {r : Rule} {t : FirstTable} {f : First}
    (hf : t.view.get? r.left = some f) (h : t.view.addRule r = t.view) :
    ¬ (reportRule r t).2 = true := by
  have hle := FirstSets.ofSequence_le_of_addRule h hf
  rw [get?_view, Option.map_eq_some_iff] at hf
  obtain ⟨set, hset, rfl⟩ := hf
  rw [snd_reportRule_iff]
  rintro (hgrew | hnew)
  · obtain ⟨set', hset', hne⟩ := OrderedMap.snd_extend_iff.mp hgrew
    obtain rfl := Option.some.inj (hset.symm.trans hset')
    obtain ⟨a, ha, hnot⟩ := SymbolSet.exists_of_union_ne hne
    exact hnot (hle.1 a ha)
  · obtain ⟨hvanishes, hnot⟩ := SymbolSet.snd_note_iff.mp hnew
    exact hnot (of_decide_eq_true (hle.2 hvanishes))

/-- Without a report the table stays as it is. -/
theorem fst_reportRule_eq {r : Rule} {t : FirstTable} (hkeys : t.sets.keys.Nodup)
    (h : ¬ (reportRule r t).2 = true) : (reportRule r t).1 = t := by
  rw [snd_reportRule_iff, OrderedMap.snd_extend_iff_ne hkeys, SymbolSet.snd_note_iff_ne, not_or,
    not_not, not_not, ← FirstSets.walk_empty] at h
  exact congrArg₂ FirstTable.mk h.1 h.2

/-- **A rule reports exactly the changes that it makes.** -/
theorem reports_rule (wf : g.WellFormed) {r : Rule} (hr : r ∈ g.inputRules) :
    Reports (fun t => t.view.IsBounded g) (fun t => t.view.entries.total (FirstSets.unknown g))
      (reportRule r) := by
  have hshrinks := FirstSets.shrinks_addRule wf hr
  -- what the `FIRST` sets do not show does not happen to the table
  have hunseen : ∀ t : FirstTable, t.view.IsBounded g → t.view.addRule r = t.view →
      ¬ (reportRule r t).2 = true := by
    intro t ht hsame
    obtain ⟨f, hf⟩ := ht.exists_get?_iff.mpr ⟨r, hr, rfl⟩
    exact not_snd_reportRule hf hsame
  have hkeys : ∀ t : FirstTable, t.view.IsBounded g → t.sets.keys.Nodup := by
    intro t ht
    rw [← keys_view, ht.keys]
    exact nodup_eraseDups _
  constructor
  case shrinks =>
    refine ⟨fun t ht => ?_, fun t ht hne => ?_⟩
    · rw [view_reportRule]
      exact hshrinks.keep _ ht
    · rw [view_reportRule]
      exact hshrinks.shrink _ ht fun hsame => hne (fst_reportRule_eq (hkeys t ht) (hunseen t ht hsame))
  case flag_iff =>
    refine fun t ht => ⟨fun hflag hsame => hunseen t ht ?_ hflag, fun hne => ?_⟩
    · rw [← view_reportRule, hsame]
    · by_contra hflag
      exact hne (fst_reportRule_eq (hkeys t ht) hflag)

/-- **A pass reports whether it adds anything**, and leaves less to add when it does. -/
theorem reports_pass (wf : g.WellFormed) :
    Reports (fun t => t.view.IsBounded g) (fun t => t.view.entries.total (FirstSets.unknown g))
      (reportPass g.inputRules) :=
  Reports.forEach fun _ hr => reports_rule wf hr

/-- The table at the start is within the grammar. -/
theorem isBounded_view_initial (g : Grammar) : (initial g.inputRules).view.IsBounded g :=
  view_initial g.inputRules ▸ FirstSets.isBounded_initial g

/-- What there is to add at the start is less than the number of passes allowed. -/
theorem total_view_initial_lt (wf : g.WellFormed) :
    (initial g.inputRules).view.entries.total (FirstSets.unknown g) < FirstSets.passBound g :=
  view_initial g.inputRules ▸ FirstSets.total_initial_lt wf

/-- **The loop converges.** -/
theorem converges (wf : g.WellFormed) :
    Converges (reportPass g.inputRules) (initial g.inputRules) (FirstSets.passBound g) :=
  (reports_pass wf).converges (Flagged.le_forEach le_reportRule g.inputRules)
    (isBounded_view_initial g) (total_view_initial_lt wf)

/-- **The loop finds the `FIRST` sets of the grammar**, in as many passes as their repetition takes. -/
theorem result_of_loops (wf : g.WellFormed) {n : Nat} {t : FirstTable}
    (h : Loops (reportPass g.inputRules) (initial g.inputRules) n t) :
    t.view = FirstSets.ofGrammar g ∧ passes (FirstSets.pass g.inputRules) (FirstSets.passBound g)
      (FirstSets.initial g.inputRules) = n := by
  have hreports := reports_pass wf
  -- a change leaves less unknown, so it is seen in the `FIRST` sets
  have hseen : ∀ t : FirstTable, t.view.IsBounded g → (reportPass g.inputRules t).1 ≠ t →
      (reportPass g.inputRules t).1.view ≠ t.view := by
    intro t ht hne hsame
    have hlt := hreports.shrinks.shrink t ht hne
    rw [hsame] at hlt
    exact Nat.lt_irrefl _ hlt
  obtain ⟨hpasses, hresult⟩ := h.saturate_eq view (FirstSets.pass g.inputRules) hreports
    (isBounded_view_initial g) (view_reportPass _) hseen ((converges wf).length_le n t h)
  rw [view_initial] at hpasses hresult
  exact ⟨hresult.symm, hpasses⟩

end FirstTable

/-! ## The loop for `FOLLOW` -/

namespace FollowSets

variable {g : Grammar} {first : FirstSets}

/-- The sets are below those that have all their terminals. -/
instance : Preorder FollowSets := Preorder.lift FollowSets.entries

/-- Adds what one occurrence of `n` adds. -/
def reportOccurrence (first : FirstSets) (left n : Nonterminal) (rest : List Symbol)
    (s : FollowSets) : FollowSets × Bool :=
  let (entries, grew) := s.entries.extend n (following first left rest s)
  (⟨entries⟩, grew)

/-- Adds what follows each nonterminal in a part of a body for `left`. -/
def reportBody (first : FirstSets) (left : Nonterminal) : List Symbol → FollowSets → FollowSets × Bool
  | [] => Flagged.idle
  | .terminal _ :: rest => reportBody first left rest
  | .nonterminal n :: rest =>
    Flagged.andThen (reportOccurrence first left n rest) (reportBody first left rest)

/-- One pass over rules. -/
def reportPass (first : FirstSets) (rules : List Rule) : FollowSets → FollowSets × Bool :=
  Flagged.forEach (fun r => reportBody first r.left r.right.toList) rules

/-- The report about a body leaves the sets as the pass makes them. -/
theorem fst_reportBody (left : Nonterminal) (body : List Symbol) (s : FollowSets) :
    (reportBody first left body s).1 = addBody first left s body := by
  induction body generalizing s with
  | nil => rfl
  | cons x rest ih =>
    cases x with
    | terminal t => exact ih s
    | nonterminal n => exact ih (s.addOccurrence first left n rest)

/-- The report about a pass leaves the sets as the pass makes them. -/
theorem fst_reportPass (rules : List Rule) (s : FollowSets) :
    (reportPass first rules s).1 = pass first rules s := by
  unfold reportPass pass
  rw [Flagged.fst_forEach]
  simp only [fst_reportBody]

/-- The occurrences in a body take nothing away. -/
theorem le_reportBody (left : Nonterminal) (body : List Symbol) (s : FollowSets) :
    s ≤ (reportBody first left body s).1 := by
  induction body generalizing s with
  | nil => exact le_refl s
  | cons x rest ih =>
    cases x with
    | terminal t => exact ih s
    | nonterminal n =>
      have hentry : s ≤ (reportOccurrence first left n rest s).1 :=
        s.entries.le_modify n fun set => set.le_union (following first left rest s)
      exact hentry.trans (ih _)

/-- A pass takes no terminal away. -/
theorem le_reportPass (rules : List Rule) (s : FollowSets) : s ≤ (reportPass first rules s).1 := by
  unfold reportPass
  exact Flagged.le_forEach (fun r s => le_reportBody r.left r.right.toList s) rules s

/-- **An occurrence reports exactly the changes that it makes.** -/
theorem reports_occurrence (hfirst : first.IsBounded g) (left n : Nonterminal)
    {rest : List Symbol} (hrest : ∀ x ∈ rest, g.HasSymbol x) :
    Reports (IsBounded g) (fun s => s.entries.total (SymbolSet.missing g.allTerminals))
      (reportOccurrence first left n rest) where
  shrinks := shrinks_addOccurrence hfirst left n hrest
  flag_iff s hs := by
    have hkeys : s.entries.keys.Nodup := hs.keys ▸ g.nodup_allNonterminals.filter _
    have hentries : (reportOccurrence first left n rest s).1 = s ↔
        (s.entries.extend n (following first left rest s)).1 = s.entries :=
      ⟨congrArg FollowSets.entries, congrArg FollowSets.mk⟩
    exact (OrderedMap.snd_extend_iff_ne hkeys).trans (not_congr hentries.symm)

/-- The same for all occurrences in a part of a body. -/
theorem reports_body (hfirst : first.IsBounded g) (left : Nonterminal) {body : List Symbol}
    (hbody : ∀ x ∈ body, g.HasSymbol x) :
    Reports (IsBounded g) (fun s => s.entries.total (SymbolSet.missing g.allTerminals))
      (reportBody first left body) := by
  induction body with
  | nil => exact Reports.idle
  | cons x rest ih =>
    have hrest : ∀ y ∈ rest, g.HasSymbol y := fun y hy => hbody y (List.mem_cons_of_mem _ hy)
    cases x with
    | terminal t => exact ih hrest
    | nonterminal n => exact (reports_occurrence hfirst left n hrest).andThen (ih hrest)

/-- **A pass reports whether it adds anything**, and leaves less to add when it does. -/
theorem reports_pass (wf : g.WellFormed) (hfirst : first.IsBounded g) :
    Reports (IsBounded g) (fun s => s.entries.total (SymbolSet.missing g.allTerminals))
      (reportPass first g.inputRules) :=
  Reports.forEach fun r hr => reports_body hfirst r.left (wf.hasSymbol_right r hr)

/-- **The loop converges.** -/
theorem converges (wf : g.WellFormed) (hfirst : first.IsBounded g) :
    Converges (reportPass first g.inputRules) (initial g) (passBound g) :=
  (reports_pass wf hfirst).converges
    (le_reportPass g.inputRules) (isBounded_initial wf) (total_initial_lt g)

/-- **The loop finds the `FOLLOW` sets of the grammar**, in as many passes as their repetition takes. -/
theorem result_of_loops (wf : g.WellFormed) (hfirst : first.IsBounded g) {n : Nat} {s : FollowSets}
    (h : Loops (reportPass first g.inputRules) (initial g) n s) :
    s = ofGrammar g first ∧
      passes (pass first g.inputRules) (passBound g) (initial g) = n := by
  obtain ⟨hpasses, hresult⟩ := h.saturate_eq id (pass first g.inputRules) (reports_pass wf hfirst)
    (isBounded_initial wf) (fst_reportPass _) (fun _ _ hne => hne)
    ((converges wf hfirst).length_le n s h)
  exact ⟨hresult.symm, hpasses⟩

end FollowSets

/-! ## How much there is to add -/

/-- The different heads of a rule list. -/
def distinctHeads (defs : List RuleDef) : Finset String := (defs.map (·.head)).toFinset

/-- The different nonterminals of a rule list, in heads and in bodies. -/
def distinctNonterminals (defs : List RuleDef) : Finset String :=
  {s ∈ (defs.flatMap fun d => d.head :: d.body).toFinset | IsCapital s}

/-- There are as many heads as names in the list of heads without repeats. -/
theorem card_distinctHeads (defs : List RuleDef) :
    (distinctHeads defs).card = (defs.map (·.head)).eraseDups.length := by
  have hsame : distinctHeads defs = (defs.map (·.head)).eraseDups.toFinset := by
    ext s
    simp [distinctHeads]
  rw [hsame, List.toFinset_card_of_nodup (nodup_eraseDups _)]

/-- There are as many nonterminals as names in the list of those that are written. -/
theorem card_distinctNonterminals {defs : List RuleDef} (hvalid : ∀ r ∈ defs, r.IsValid) :
    (distinctNonterminals defs).card = (writtenNonterminals defs).length := by
  have hsame : distinctNonterminals defs = (writtenNonterminals defs).toFinset := by
    ext s
    have hhead : ∀ d ∈ defs, d.head = s → IsCapital s := fun d hd hs =>
      hs ▸ isNonterminalName_iff.mp (hvalid d hd).1
    simp only [distinctNonterminals, writtenNonterminals, Finset.mem_filter, List.mem_toFinset,
      List.mem_flatMap, List.mem_cons, List.mem_eraseDups, List.mem_append, List.mem_map,
      List.mem_filter, isNonterminalName_iff]
    constructor
    · rintro ⟨⟨d, hd, rfl | hs⟩, hcapital⟩
      · exact Or.inl ⟨d, hd, rfl⟩
      · exact Or.inr ⟨d, hd, hs, hcapital⟩
    · rintro (⟨d, hd, hs⟩ | ⟨d, hd, hs, hcapital⟩)
      · exact ⟨⟨d, hd, Or.inl hs.symm⟩, hhead d hd hs⟩
      · exact ⟨⟨d, hd, Or.inr hs⟩, hcapital⟩
  have hnodup : (writtenNonterminals defs).Nodup := nodup_eraseDups _
  rw [hsame, List.toFinset_card_of_nodup hnodup]

namespace Grammar

variable {g : Grammar} {defs : List RuleDef}

/-- There is one set of `FIRST` for each head. -/
theorem IsAugmentation.length_heads (h : g.IsAugmentation defs) :
    (g.inputRules.map (·.left)).eraseDups.length = (distinctHeads defs).card := by
  have hplaces : g.inputRules.map (·.left) =
      (defs.map (·.head)).map fun name => Nonterminal.mk ((nonterminalNames defs).idxOf name) := by
    rw [h.inputRules_eq, List.map_map, List.map_map]
    rfl
  have hapart : ∀ a ∈ defs.map (·.head), ∀ b ∈ defs.map (·.head),
      Nonterminal.mk ((nonterminalNames defs).idxOf a) = ⟨(nonterminalNames defs).idxOf b⟩ →
        a = b := by
    intro a ha b hb hab
    obtain ⟨d, hd, rfl⟩ := List.mem_map.mp ha
    exact (List.idxOf_inj (head_mem hd)).mp (congrArg Nonterminal.number hab)
  rw [hplaces, eraseDups_map hapart, List.length_map, card_distinctHeads]

/-- One of the nonterminals is the fresh start symbol. -/
theorem length_filter_allNonterminals {n : Nat} (h : g.nonterminals.size = n + 1) :
    (g.allNonterminals.filter (· ≠ .freshStart)).length = n := by
  have hothers : ((List.range n).map (Nonterminal.mk ∘ Nat.succ)).filter (· ≠ .freshStart) =
      (List.range n).map (Nonterminal.mk ∘ Nat.succ) := by
    refine List.filter_eq_self.mpr fun m hm => ?_
    obtain ⟨i, -, rfl⟩ := List.mem_map.mp hm
    exact decide_eq_true fun heq => Nat.succ_ne_zero i (congrArg Nonterminal.number heq)
  rw [allNonterminals, h, List.range_succ_eq_map, List.map_cons, List.map_map,
    List.filter_cons_of_neg (by decide), hothers, List.length_map, List.length_range]

/-- Besides the terminals of the rule list only the end of the input has a number. -/
theorem size_terminals_of_augment (h : Grammar.augment defs = .ok g) :
    g.terminals.size = (distinctTerminals defs).card + 1 := by
  have hnumbered := isNumbered_of_augment h
  have hfaultless := fun r hr => RuleDef.isValid_iff.mp (hnumbered.valid r hr)
  rw [hnumbered.terminals, length_terminalNames hfaultless]

/-- The bound of the passes for `FIRST`, by the names of the rule list. -/
theorem passBound_first (h : Grammar.augment defs = .ok g) : FirstSets.passBound g =
    (distinctHeads defs).card * ((distinctTerminals defs).card + 1) + 1 := by
  rw [FirstSets.passBound, size_terminals_of_augment h, FirstSets.initial, OrderedMap.ofKeys,
    List.length_map, (isAugmentation_of_augment h).length_heads]

/-- The bound of the passes for `FOLLOW`, by the names of the rule list. -/
theorem passBound_follow (h : Grammar.augment defs = .ok g) : FollowSets.passBound g =
    (distinctNonterminals defs).card * ((distinctTerminals defs).card + 1) + 1 := by
  have hnumbered := isNumbered_of_augment h
  rw [FollowSets.passBound, size_terminals_of_augment h, FollowSets.initial, OrderedMap.modify,
    List.length_map, OrderedMap.ofKeys, List.length_map,
    length_filter_allNonterminals hnumbered.nonterminals, card_distinctNonterminals hnumbered.valid]

/-! ## The loops of a rule list -/

/-- With so many heads, nonterminals besides the fresh start symbol, and terminals besides the end of
the input, the loops for `FIRST` and `FOLLOW` converge to the sets of the grammar in few passes. -/
structure HasShortLoops (g : Grammar) (heads nonterminals terminals : Nat) : Prop where
  /-- each pass for `FIRST` but the last adds to the set of a head, or finds that a head can vanish -/
  first : Converges (FirstTable.reportPass g.inputRules) (FirstTable.initial g.inputRules)
    (heads * (terminals + 1) + 1)
  /-- the loop for `FIRST` ends in the `FIRST` sets, in as many passes as their repetition takes -/
  first_result : ∀ n t, Loops (FirstTable.reportPass g.inputRules)
    (FirstTable.initial g.inputRules) n t → t.view = FirstSets.ofGrammar g ∧
      passes (FirstSets.pass g.inputRules) (FirstSets.passBound g)
        (FirstSets.initial g.inputRules) = n
  /-- each pass for `FOLLOW` but the last adds to the set of a nonterminal -/
  follow : Converges (FollowSets.reportPass (FirstSets.ofGrammar g) g.inputRules)
    (FollowSets.initial g) (nonterminals * (terminals + 1) + 1)
  /-- the loop for `FOLLOW` ends in the `FOLLOW` sets, in as many passes as their repetition takes -/
  follow_result : ∀ n s, Loops (FollowSets.reportPass (FirstSets.ofGrammar g) g.inputRules)
    (FollowSets.initial g) n s → s = FollowSets.ofGrammar g (FirstSets.ofGrammar g) ∧
      passes (FollowSets.pass (FirstSets.ofGrammar g) g.inputRules) (FollowSets.passBound g)
        (FollowSets.initial g) = n

/-- **Few passes find `FIRST` and `FOLLOW`** of every rule list. -/
theorem hasShortLoops_of_augment (h : Grammar.augment defs = .ok g) :
    g.HasShortLoops (distinctHeads defs).card (distinctNonterminals defs).card
      (distinctTerminals defs).card := by
  have wf := wellFormed_of_augment h
  have hfirst := FirstSets.isBounded_ofGrammar wf
  constructor
  case first => exact passBound_first h ▸ FirstTable.converges wf
  case first_result => exact fun _ _ => FirstTable.result_of_loops wf
  case follow => exact passBound_follow h ▸ FollowSets.converges wf hfirst
  case follow_result => exact fun _ _ => FollowSets.result_of_loops wf hfirst

/-- Rules in which each head waits for the one behind it. -/
def chainRules : List RuleDef := [⟨"S", ["A"]⟩, ⟨"A", ["B"]⟩, ⟨"B", ["b"]⟩, ⟨"B", []⟩]

/-- With such rules what the last head begins with goes up by one head in each pass. -/
theorem hasShortLoops_of_augment_chainRules : ∃ g, Grammar.augment chainRules = .ok g ∧
    g.HasShortLoops 3 3 1 ∧
    ∃ t, Loops (FirstTable.reportPass g.inputRules) (FirstTable.initial g.inputRules) 4 t := by
  obtain ⟨g, hg⟩ : ∃ g, Grammar.augment chainRules = .ok g :=
    exists_augment (by decide) (by unfold RuleDef.IsValid; decide) (by decide) (by decide)
  refine ⟨g, hg, hasShortLoops_of_augment hg, ?_⟩
  have hrules : g.inputRules = [⟨⟨1⟩, #[.nonterminal ⟨2⟩]⟩, ⟨⟨2⟩, #[.nonterminal ⟨3⟩]⟩,
      ⟨⟨3⟩, #[.terminal ⟨1⟩]⟩, ⟨⟨3⟩, #[]⟩] := by
    rw [inputRules, (isNumbered_of_augment hg).rules]
    cbv
  rw [hrules]
  -- from pass to pass one more head is known to begin with the terminal, and to vanish
  refine ⟨⟨⟨[(⟨1⟩, {⟨1⟩}), (⟨2⟩, {⟨1⟩}), (⟨3⟩, {⟨1⟩})]⟩, .ofList [⟨1⟩, ⟨2⟩, ⟨3⟩]⟩, ?_⟩
  refine .again (y := ⟨⟨[(⟨1⟩, ∅), (⟨2⟩, ∅), (⟨3⟩, {⟨1⟩})]⟩, .ofList [⟨3⟩]⟩) (by cbv) ?_
  refine .again (y := ⟨⟨[(⟨1⟩, ∅), (⟨2⟩, {⟨1⟩}), (⟨3⟩, {⟨1⟩})]⟩, .ofList [⟨2⟩, ⟨3⟩]⟩) (by cbv) ?_
  exact .again (by cbv) (.last (by cbv))

end Grammar

end ShiftReduce
