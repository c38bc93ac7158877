import ShiftReduce.Proofs.ConflictHistory
import Mathlib.Data.Set.Card

/-! # The worklist of the automaton

The automaton is made turn by turn: the next item set that was entered is taken up, and those of its goto
sets that are new are entered behind all others (`Worklist.turn`). A run of turns has no bound
(`Worklist.Runs`), and needs none: no item set is entered twice, and each is a set of items of rules that
are not superseded, so there are no more turns than such sets (`Worklist.Runs.length_all_le`). When nothing
is left, each item set that is reached has been taken up once (`Worklist.Runs.mem_taken_iff`), and the states
are those of the automaton, whose bound is never met (`Worklist.Runs.states_eq`). -/

namespace ShiftReduce

/-! ## Items of rules that are not superseded -/

namespace Grammar

/-- The items of rules that are not superseded, with the marker at any place of the body. -/
def usableItems (g : Grammar) : Set Item :=
  {i | g.isSuperseded i.rule = false ∧ ∃ r, g.rule? i.rule = some r ∧ i.marker ≤ r.right.size}

end Grammar

namespace Automaton

variable {g : Grammar}

/-- No item of the grammar is listed twice. -/
theorem nodup_allItems (g : Grammar) : (allItems g).Nodup := by
  unfold allItems
  rw [List.nodup_flatMap]
  constructor
  · intro i _
    split
    · exact List.nodup_nil
    · exact List.nodup_range.map fun m m' h => (Item.ext_iff.mp h).2
  · -- items of different rules are different
    refine List.nodup_range.imp fun {i j} hne => ?_
    have hrule {k : Nat} {item : Item} (h : item ∈ if g.isSuperseded k then [] else
        (List.range (((g.rule? k).map (·.right.size + 1)).getD 0)).map (⟨k, ·⟩)) : item.rule = k := by
      split at h
      · cases h
      · obtain ⟨m, -, rfl⟩ := List.mem_map.mp h
        rfl
    exact fun item hi hj => hne ((hrule hi).symm.trans (hrule hj))

/-- There are as many usable items as are counted. -/
theorem ncard_usableItems (g : Grammar) : g.usableItems.ncard = itemCount g := by
  have heq : g.usableItems = ((allItems g).toFinset : Set Item) := by
    ext i
    rw [List.coe_toFinset, Set.mem_ofPred_eq, mem_allItems]
    rfl
  rw [heq, Set.ncard_coe_finset, List.toFinset_card_of_nodup (nodup_allItems g), length_allItems]

/-- Item sets that are reached have usable items only. -/
theorem mem_usableItems_of_isReached (wf : g.WellFormed) {s : ItemSet} (h : s.IsReached g) :
    ∀ i ∈ s, i ∈ g.usableItems := by
  obtain ⟨k, state, hstate, rfl⟩ := (isReached_iff wf).mp h
  exact fun i hi => mem_allItems.mp
    (mem_allItems_of_mem_itemSets wf _ (mem_itemSets_of_state? wf hstate).1 i hi)

end Automaton

/-! ## Turns -/

/-- An automaton that is under construction. -/
structure Worklist where
  /-- the states of the item sets that have been taken up -/
  states : Array State
  /-- the item sets that have been found -/
  found : Numbering ItemSet

namespace Worklist

/-- The start items are found, and nothing has been taken up. -/
def start (g : Grammar) : Worklist := ⟨#[], (Numbering.empty.intern (Automaton.startItems g)).2⟩

/-- The item set that is taken up next, if one is left. -/
def next? (w : Worklist) : Option ItemSet := w.found.value? w.states.size

/-- Takes up an item set. -/
def turn (g : Grammar) (w : Worklist) (items : ItemSet) : Worklist :=
  let (out, found) := Automaton.edges g items (items.expected g) w.found
  ⟨w.states.push ⟨items, out⟩, found⟩

/-- What is entered when an item set is taken up: its goto sets that have not been found before. -/
def entered (g : Grammar) (w : Worklist) (items : ItemSet) : List ItemSet :=
  ((items.gotos g).filter fun s => s ∉ w.found.toList).eraseDups

/-- The runs of the worklist, with the item sets that are taken up and those that are entered. -/
inductive Runs (g : Grammar) : List ItemSet → List ItemSet → Worklist → Prop
  /-- at first the start items are entered -/
  | start : Runs g [] [Automaton.startItems g] (start g)
  /-- the next item set is taken up -/
  | turn {taken all : List ItemSet} {w : Worklist} {items : ItemSet} (h : Runs g taken all w)
      (hnext : w.next? = some items) :
      Runs g (taken ++ [items]) (all ++ w.entered g items) (w.turn g items)

variable {g : Grammar} {w : Worklist} {items : ItemSet} {taken all : List ItemSet}

/-- A turn adds one state. -/
@[simp] theorem size_states_turn (g : Grammar) (w : Worklist) (items : ItemSet) :
    (w.turn g items).states.size = w.states.size + 1 :=
  Array.size_push ..

/-- At the start the start items are found. -/
@[simp] theorem toList_found_start (g : Grammar) :
    (start g).found.toList = [Automaton.startItems g] := by
  simp [start, Numbering.toList_intern]

/-- **A turn finds what it enters.** -/
theorem toList_found_turn (g : Grammar) (w : Worklist) (items : ItemSet) :
    (w.turn g items).found.toList = w.found.toList ++ w.entered g items := by
  show (Automaton.edges g items (items.expected g) w.found).2.toList = _
  rw [Automaton.toList_edges, List.eraseDups_append, ← w.found.toList_eq_eraseDups]
  simp [entered, List.removeAll, ItemSet.gotos]

/-- What is entered are the goto sets not found before. -/
theorem mem_entered {s : ItemSet} :
    s ∈ w.entered g items ↔ s ∈ items.gotos g ∧ s ∉ w.found.toList := by
  simp [entered]

/-- The next item set is the first found one that is not taken up. -/
theorem next?_eq_some : w.next? = some items ↔ w.found.toList[w.states.size]? = some items := by
  rw [next?, Numbering.getElem?_toList]

/-- Nothing is left when as many are taken up as are found. -/
theorem next?_eq_none : w.next? = none ↔ w.found.toList.length ≤ w.states.size := by
  rw [next?, ← Numbering.getElem?_toList, List.getElem?_eq_none_iff]

/-! ## What holds throughout a run -/

namespace Runs

/-- What has been entered is what is found. -/
theorem toList_found (h : Runs g taken all w) : w.found.toList = all := by
  induction h with
  | start => exact toList_found_start g
  | turn _ _ ih => rw [toList_found_turn, ih]

/-- There is a state for each item set that has been taken up. -/
theorem size_states (h : Runs g taken all w) : w.states.size = taken.length := by
  induction h with
  | start => rfl
  | turn _ _ ih => simp [ih]

/-- The states have the item sets that have been taken up, in order. -/
theorem items_states (h : Runs g taken all w) : w.states.toList.map (·.items) = taken := by
  induction h with
  | start => rfl
  | turn _ _ ih => simp [Worklist.turn, ih]

/-- **No item set is entered twice.** -/
theorem nodup (h : Runs g taken all w) : all.Nodup := by
  rw [← h.toList_found]
  exact w.found.nodup_toList

/-- During a run the next item set is the one behind those taken up. -/
theorem next?_eq_some (h : Runs g taken all w) : w.next? = some items ↔ all[taken.length]? = some items := by
  rw [Worklist.next?_eq_some, h.toList_found, h.size_states]

/-- **Item sets are taken up in the order in which they were entered.** -/
theorem isPrefix (h : Runs g taken all w) : taken <+: all := by
  induction h with
  | start => exact List.nil_prefix
  | @turn taken all w items h hnext ih =>
    obtain ⟨rest, rfl⟩ := ih
    -- the next one stands behind those that have been taken up
    have hget := h.next?_eq_some.mp hnext
    rw [List.getElem?_append_right (Nat.le_refl _), Nat.sub_self] at hget
    cases rest with
    | nil => simp at hget
    | cons first rest =>
      obtain rfl : first = items := by simpa using hget
      exact ⟨rest ++ w.entered g first, by simp⟩

/-- No more item sets are taken up than there are. -/
theorem length_le (h : Runs g taken all w) : taken.length ≤ all.length := h.isPrefix.length_le

/-- Nothing is left when all that was entered has been taken up. -/
theorem next?_eq_none (h : Runs g taken all w) : w.next? = none ↔ taken = all := by
  rw [Worklist.next?_eq_none, h.toList_found, h.size_states]
  constructor
  · exact fun hle => h.isPrefix.eq_of_length_le hle
  · rintro rfl
    exact Nat.le_refl _

/-- What is entered is reached. -/
theorem isReached (h : Runs g taken all w) : ∀ s ∈ all, s.IsReached g := by
  induction h with
  | start => simpa using ItemSet.IsReached.start
  | @turn taken all w items h hnext ih =>
    have hitems := ih items (List.mem_of_getElem? (h.next?_eq_some.mp hnext))
    intro s hs
    rcases List.mem_append.mp hs with hs | hs
    · exact ih s hs
    · obtain ⟨x, hx, rfl⟩ := ItemSet.mem_gotos.mp (mem_entered.mp hs).1
      exact hitems.goto hx

/-- The start items are entered. -/
theorem start_mem (h : Runs g taken all w) : Automaton.startItems g ∈ all := by
  induction h with
  | start => simp
  | turn _ _ ih => exact List.mem_append_left _ ih

/-- The goto sets of what has been taken up are entered. -/
theorem gotos_mem (h : Runs g taken all w) : ∀ s ∈ taken, ∀ s' ∈ s.gotos g, s' ∈ all := by
  induction h with
  | start => simp
  | @turn taken all w items h hnext ih =>
    intro s hs s' hs'
    by_cases hmem : s' ∈ all
    · exact List.mem_append_left _ hmem
    · rcases List.mem_append.mp hs with hs | hs
      · exact absurd (ih s hs s' hs') hmem
      -- a new one is entered in this turn
      · rw [List.mem_singleton.mp hs] at hs'
        refine List.mem_append_right _ (mem_entered.mpr ⟨hs', ?_⟩)
        rwa [h.toList_found]

/-- **In the end each item set that is reached has been taken up.** -/
theorem mem_taken_iff (h : Runs g taken all w) (hend : w.next? = none) {s : ItemSet} :
    s ∈ taken ↔ s.IsReached g := by
  obtain rfl := h.next?_eq_none.mp hend
  constructor
  · exact h.isReached s
  · intro hs
    induction hs with
    | start => exact h.start_mem
    | goto _ hx ih => exact h.gotos_mem _ ih _ (ItemSet.mem_gotos.mpr ⟨_, hx, rfl⟩)

/-- **There are no more item sets to enter than sets of usable items.** -/
theorem length_all_le (wf : g.WellFormed) (h : Runs g taken all w) :
    all.length ≤ 2 ^ g.usableItems.ncard := by
  rw [Automaton.ncard_usableItems, ← Automaton.length_allItems]
  refine Automaton.length_le_of_subset h.nodup fun s hs i hi => ?_
  exact Automaton.mem_allItems.mpr (Automaton.mem_usableItems_of_isReached wf (h.isReached s hs) i hi)

/-! ## The bound of the automaton -/

/-- The automaton is made by the same turns, as long as its bound admits them. -/
theorem explore_eq (h : Runs g taken all w) (bound : Nat) :
    Automaton.explore g (taken.length + bound) #[] (Worklist.start g).found =
      Automaton.explore g bound w.states w.found := by
  induction h generalizing bound with
  | start => rw [List.length_nil, Nat.zero_add]; rfl
  | @turn taken all w items h hnext ih =>
    rw [List.length_append, List.length_singleton, Nat.add_assoc, Nat.add_comm 1, ih]
    rw [Automaton.explore, show w.found.value? w.states.size = some items from hnext]
    rfl

/-- When nothing is left, more room makes no difference. -/
theorem explore_eq_states (h : Runs g taken all w) (hend : w.next? = none) {bound : Nat}
    (hroom : taken.length ≤ bound) :
    Automaton.explore g bound #[] (Worklist.start g).found = w.states := by
  obtain ⟨more, rfl⟩ := Nat.exists_eq_add_of_le hroom
  rw [h.explore_eq]
  cases more with
  | zero => rfl
  | succ more => rw [Automaton.explore, show w.found.value? w.states.size = none from hend]

/-- **When nothing is left, the states are those of the automaton.** -/
theorem states_eq (wf : g.WellFormed) (h : Runs g taken all w) (hend : w.next? = none) :
    w.states = (Automaton.ofGrammar g).states := by
  refine (h.explore_eq_states hend ?_).symm
  rw [← Automaton.ncard_usableItems]
  exact h.length_le.trans (h.length_all_le wf)

end Runs

/-! ## Termination -/

/-- There is a run of any length, unless one ends before. -/
theorem exists_runs (g : Grammar) (n : Nat) :
    ∃ taken all w, Runs g taken all w ∧ (w.next? = none ∨ taken.length = n) := by
  induction n with
  | zero => exact ⟨_, _, _, .start, Or.inr rfl⟩
  | succ n ih =>
    obtain ⟨taken, all, w, h, hend | hlength⟩ := ih
    · exact ⟨taken, all, w, h, Or.inl hend⟩
    · cases hnext : w.next? with
      | none => exact ⟨taken, all, w, h, Or.inl hnext⟩
      | some items => exact ⟨_, _, _, h.turn hnext, Or.inr (by simp [hlength])⟩

/-- **The worklist ends**, as a run with a turn for each set of usable items has none left. -/
theorem exists_runs_next?_eq_none (wf : g.WellFormed) :
    ∃ taken all w, Runs g taken all w ∧ w.next? = none := by
  obtain ⟨taken, all, w, h, hend | hlength⟩ := exists_runs g (2 ^ g.usableItems.ncard)
  · exact ⟨taken, all, w, h, hend⟩
  · refine ⟨taken, all, w, h, h.next?_eq_none.mpr (h.isPrefix.eq_of_length_le ?_)⟩
    rw [hlength]
    exact h.length_all_le wf

/-- The worklist of a grammar ends after it has taken up each item set once. -/
structure Terminates (g : Grammar) : Prop where
  /-- in no run an item set is entered twice, and those that are taken up come in the order of entry -/
  entered_once : ∀ taken all w, Runs g taken all w → all.Nodup ∧ taken <+: all
  /-- a run goes on as long as something that was entered has not been taken up -/
  goes_on : ∀ taken all w, Runs g taken all w → (w.next? = none ↔ taken = all)
  /-- no run has more turns than there are sets of usable items -/
  bounded : ∀ taken all w, Runs g taken all w → taken.length ≤ 2 ^ g.usableItems.ncard
  /-- some run has nothing left -/
  ends : ∃ taken all w, Runs g taken all w ∧ w.next? = none
  /-- then each item set that is reached has been taken up, in a turn of its own -/
  exhausts : ∀ taken all w, Runs g taken all w → w.next? = none →
    taken.Nodup ∧ ∀ s, s ∈ taken ↔ s.IsReached g
  /-- and the states are those of the automaton, with as many turns as states -/
  states : ∀ taken all w, Runs g taken all w → w.next? = none →
    w.states = (Automaton.ofGrammar g).states ∧ taken.length = (Automaton.ofGrammar g).states.size
  /-- there are no more states than sets of usable items -/
  size_le : (Automaton.ofGrammar g).states.size ≤ 2 ^ g.usableItems.ncard

/-- **The construction of the automaton terminates.** -/
theorem terminates {defs : List RuleDef} {g : Grammar} (h : Grammar.augment defs = .ok g) :
    Terminates g := by
  have wf := Grammar.wellFormed_of_augment h
  have hbounded (taken all : List ItemSet) (w : Worklist) (hruns : Runs g taken all w) :
      taken.length ≤ 2 ^ g.usableItems.ncard := hruns.length_le.trans (hruns.length_all_le wf)
  have hstates (taken all : List ItemSet) (w : Worklist) (hruns : Runs g taken all w)
      (hend : w.next? = none) : w.states = (Automaton.ofGrammar g).states ∧
        taken.length = (Automaton.ofGrammar g).states.size := by
    rw [← hruns.size_states, hruns.states_eq wf hend]
    exact ⟨rfl, rfl⟩
  constructor
  case entered_once => exact fun taken all w hruns => ⟨hruns.nodup, hruns.isPrefix⟩
  case goes_on => exact fun taken all w hruns => hruns.next?_eq_none
  case bounded => exact hbounded
  case ends => exact exists_runs_next?_eq_none wf
  case exhausts =>
    intro taken all w hruns hend
    exact ⟨hruns.nodup.sublist hruns.isPrefix.sublist, fun s => hruns.mem_taken_iff hend⟩
  case states => exact hstates
  case size_le =>
    obtain ⟨taken, all, w, hruns, hend⟩ := exists_runs_next?_eq_none wf
    rw [← (hstates taken all w hruns hend).2]
    exact hbounded taken all w hruns

/-- A rule list with left recursion, a rule that comes twice and item sets that are found more than
once. -/
theorem terminates_leftRecursion : ∃ g,
    Grammar.augment [⟨"S", ["S", "a"]⟩, ⟨"S", ["b", "S"]⟩, ⟨"S", []⟩, ⟨"S", ["S", "a"]⟩] = .ok g ∧
    Terminates g := by
  obtain ⟨g, hg⟩ : ∃ g, Grammar.augment
      [⟨"S", ["S", "a"]⟩, ⟨"S", ["b", "S"]⟩, ⟨"S", []⟩, ⟨"S", ["S", "a"]⟩] = .ok g :=
    Grammar.exists_augment (by decide) (by unfold RuleDef.IsValid; decide) (by decide) (by decide)
  exact ⟨g, hg, terminates hg⟩

end Worklist

end ShiftReduce
