import ShiftReduce.Proofs.Completeness
import ShiftReduce.Proofs.StateBounds
import ShiftReduce.Proofs.SheetColumns
import ShiftReduce.Proofs.Worklist

/-! # The counter of states

The numbers of states come from a counter of `32` bits that nothing checks. Here the automaton is made turn by
turn with such numbers, which go from zero again when the counter is full (`NumberedWorklist`). Each turn does
the same as one of `Worklist`, with numbers modulo `2 ^ 32` (`Worklist.numbered_turn`), so at the end there
are the states of the automaton under these numbers. The counter has started again exactly when there are
`2 ^ 32` states or more, and with one more two states have the same number
(`NumberedWorklist.countsStates`). -/

namespace ShiftReduce

/-! ## The counter -/

/-- A counter of `32` bits. -/
structure Counter where
  /-- the number that is handed out next -/
  next : UInt32 := 0
  /-- whether the counter has started again from zero -/
  wrapped : Bool := false

namespace Counter

/-- Hands out a number. -/
def advance (c : Counter) : Counter := ⟨c.next + 1, c.wrapped || c.next + 1 == 0⟩

/-- The counter behind some numbers. -/
def behind (n : Nat) : Counter := ⟨UInt32.ofNat n, decide (2 ^ 32 ≤ n)⟩

/-- Two numbers are the same on the machine when they differ by a multiple of 2^32. -/
theorem ofNat_inj {m n : Nat} : UInt32.ofNat m = UInt32.ofNat n ↔ m % 2 ^ 32 = n % 2 ^ 32 := by
  rw [← UInt32.toNat_inj, UInt32.toNat_ofNat', UInt32.toNat_ofNat']

/-- **The counter starts again with number `2 ^ 32`.** -/
@[simp] theorem advance_behind (n : Nat) : (behind n).advance = behind (n + 1) := by
  have hnext : UInt32.ofNat n + 1 = UInt32.ofNat (n + 1) := by simp
  have hzero : UInt32.ofNat (n + 1) = 0 ↔ (n + 1) % 2 ^ 32 = 0 := ofNat_inj (n := 0)
  have hwrapped : (decide (2 ^ 32 ≤ n) || UInt32.ofNat (n + 1) == 0) = decide (2 ^ 32 ≤ n + 1) := by
    rw [Bool.eq_iff_iff, Bool.or_eq_true, beq_iff_eq, hzero, decide_eq_true_eq, decide_eq_true_eq]
    omega
  simp only [behind, advance, hnext, hwrapped]

/-- There are no more than `2 ^ 32` different numbers. -/
theorem length_le_of_nodup {l : List UInt32} (h : l.Nodup) : l.length ≤ 2 ^ 32 := by
  have hsub : l.map UInt32.toNat ⊆ List.range (2 ^ 32) := by
    intro n hn
    obtain ⟨number, -, rfl⟩ := List.mem_map.mp hn
    exact List.mem_range.mpr number.toNat_lt
  have hnodup : (l.map UInt32.toNat).Nodup := h.map fun i j => UInt32.toNat_inj.mp
  simpa only [List.length_map, List.length_range] using (List.subperm_of_subset hnodup hsub).length_le

/-- **Numbers that come from the counter are different when there are at most `2 ^ 32` of them.** -/
theorem nodup_map_ofNat_range {n : Nat} :
    ((List.range n).map UInt32.ofNat).Nodup ↔ n ≤ 2 ^ 32 := by
  constructor
  · intro h
    simpa only [List.length_map, List.length_range] using length_le_of_nodup h
  · intro hle
    refine List.Nodup.map_on (fun i hi j hj heq => ?_) List.nodup_range
    rw [List.mem_range] at hi hj
    rw [ofNat_inj] at heq
    omega

end Counter

/-! ## Turns with numbers -/

/-- A state with its number. -/
structure NumberedState where
  /-- the number -/
  number : UInt32
  /-- the items that are valid here -/
  items : ItemSet
  /-- for each symbol that is expected the number of the state behind it -/
  edges : List (Symbol × UInt32)

/-- An automaton that is under construction, with numbers from the counter. -/
structure NumberedWorklist where
  /-- the states of the item sets that have been taken up, in order -/
  taken : List NumberedState := []
  /-- the item sets that have been found, with their numbers -/
  found : OrderedMap ItemSet UInt32 := {}
  /-- the counter -/
  counter : Counter := {}

namespace NumberedWorklist

/-- The number of an item set, from the counter when it is new. -/
def intern (w : NumberedWorklist) (s : ItemSet) : UInt32 × NumberedWorklist :=
  match w.found.get? s with
  | some number => (number, w)
  | none => (w.counter.next,
      { w with found := w.found.insert s w.counter.next, counter := w.counter.advance })

/-- The start items have the first number. -/
def start (g : Grammar) : NumberedWorklist := (intern {} (Automaton.startItems g)).2

/-- The item set that is taken up next with its number, if one is left. -/
def next? (w : NumberedWorklist) : Option (ItemSet × UInt32) := w.found.entries[w.taken.length]?

/-- The edges of a state for some symbols. -/
def edges (g : Grammar) (items : ItemSet) :
    List Symbol → NumberedWorklist → List (Symbol × UInt32) × NumberedWorklist
  | [], w => ([], w)
  | symbol :: rest, w =>
    let (target, w) := w.intern (items.goto g symbol)
    let (others, w) := edges g items rest w
    ((symbol, target) :: others, w)

/-- Takes up an item set. -/
def turn (g : Grammar) (w : NumberedWorklist) (items : ItemSet) (number : UInt32) : NumberedWorklist :=
  let (out, w) := edges g items (items.expected g) w
  { w with taken := w.taken ++ [⟨number, items, out⟩] }

/-- The runs of the worklist. -/
inductive Runs (g : Grammar) : NumberedWorklist → Prop
  /-- at first the start items are found -/
  | start : Runs g (start g)
  /-- the next item set is taken up -/
  | turn {w : NumberedWorklist} {items : ItemSet} {number : UInt32} (h : Runs g w)
      (hnext : w.next? = some (items, number)) : Runs g (w.turn g items number)

/-- The states by number. A state takes the place of one with the same number. -/
def kept (w : NumberedWorklist) : OrderedMap UInt32 NumberedState :=
  (w.taken.map fun s => (s.number, s)).foldl (fun m e => m.insert e.1 e.2) {}

end NumberedWorklist

/-! ## The same turns without numbers -/

/-- A state under its number. -/
def State.numbered (s : State) (i : Nat) : NumberedState :=
  ⟨UInt32.ofNat i, s.items, s.edges.map fun e => (e.1, UInt32.ofNat e.2)⟩

/-- The states of an automaton under their numbers. -/
def Automaton.numbered (a : Automaton) : List NumberedState :=
  a.states.toList.zipIdx.map fun e => e.1.numbered e.2

/-- Item sets that have been found, with their numbers. -/
def Numbering.numbered (found : Numbering ItemSet) : OrderedMap ItemSet UInt32 :=
  ⟨found.toList.zipIdx.map fun e => (e.1, UInt32.ofNat e.2)⟩

namespace Numbering

variable (found : Numbering ItemSet) (s : ItemSet)

/-- The keys of the numbered map are the item sets that are found, in their order. -/
theorem keys_numbered : found.numbered.keys = found.toList := by
  simp [numbered, OrderedMap.keys, Function.comp_def]

/-- An item set has the number of its place. -/
theorem get?_numbered : found.numbered.get? s = (found.number? s).map UInt32.ofNat := by
  have hnodup : found.numbered.keys.Nodup := by
    rw [keys_numbered]
    exact found.nodup_toList
  refine Option.ext fun number => ?_
  rw [OrderedMap.get?_eq_some_iff hnodup, Option.map_eq_some_iff]
  simp only [numbered, List.mem_map, Prod.exists, Prod.mk.injEq, List.mem_zipIdx_iff_getElem?,
    getElem?_toList, number?_eq_some]
  constructor
  · rintro ⟨s', i, hget, rfl, rfl⟩
    exact ⟨i, hget, rfl⟩
  · rintro ⟨i, hget, rfl⟩
    exact ⟨s, i, hget, rfl, rfl⟩

/-- A new item set gets the number behind all others. -/
theorem numbered_intern {found : Numbering ItemSet} {s : ItemSet} (h : found.number? s = none) :
    (found.intern s).2.numbered = found.numbered.insert s (UInt32.ofNat found.size) ∧
      (found.intern s).1 = found.size ∧ (found.intern s).2.size = found.size + 1 := by
  have hnew : s ∉ found.toList := number?_eq_none_iff.mp h
  have hlist : (found.intern s).2.toList = found.toList ++ [s] := by
    rw [toList_intern, if_neg hnew]
  refine ⟨?_, ?_, ?_⟩
  · rw [OrderedMap.insert_of_not_mem (by rwa [keys_numbered])]
    simp [numbered, hlist, List.zipIdx_append]
  · rw [intern_fst, hlist, List.idxOf_append_of_notMem hnew]
    simp
  · simp [← length_toList, hlist]

end Numbering

namespace Worklist

variable {g : Grammar} {w : Worklist} {items : ItemSet}

/-- A worklist with numbers from the counter. -/
def numbered (w : Worklist) : NumberedWorklist where
  taken := Automaton.numbered ⟨w.states⟩
  found := w.found.numbered
  counter := .behind w.found.size

/-- **An item set gets the number of its place.** -/
theorem intern_numbered (w : Worklist) (s : ItemSet) :
    w.numbered.intern s =
      (UInt32.ofNat (w.found.intern s).1, numbered ⟨w.states, (w.found.intern s).2⟩) := by
  have hget : w.numbered.found.get? s = (w.found.number? s).map UInt32.ofNat := w.found.get?_numbered s
  unfold NumberedWorklist.intern
  cases hnumber : w.found.number? s with
  | some i =>
    rw [Numbering.intern_of_value? (Numbering.number?_eq_some.mp hnumber), hget, hnumber]
    rfl
  | none =>
    obtain ⟨hfound, hplace, hsize⟩ := Numbering.numbered_intern hnumber
    rw [hget, hnumber, hplace]
    unfold numbered
    rw [hfound, hsize, ← Counter.advance_behind]
    rfl

/-- Edges lead to the numbers of the places. -/
theorem edges_numbered (symbols : List Symbol) (w : Worklist) :
    NumberedWorklist.edges g items symbols w.numbered =
      ((Automaton.edges g items symbols w.found).1.map fun e => (e.1, UInt32.ofNat e.2),
        numbered ⟨w.states, (Automaton.edges g items symbols w.found).2⟩) := by
  induction symbols generalizing w with
  | nil => rfl
  | cons symbol symbols ih =>
    unfold NumberedWorklist.edges
    rw [intern_numbered]
    dsimp only
    rw [ih]
    rfl

/-- As many item sets are taken up with machine numbers as without. -/
theorem length_taken_numbered (w : Worklist) : w.numbered.taken.length = w.states.size := by
  simp [numbered, Automaton.numbered]

/-- What is taken up next has the number of its place. -/
theorem next?_numbered (w : Worklist) :
    w.numbered.next? = w.next?.map fun items => (items, UInt32.ofNat w.states.size) := by
  unfold NumberedWorklist.next? next?
  rw [length_taken_numbered]
  simp [numbered, Numbering.numbered, Function.comp_def, Numbering.getElem?_toList]

/-- **A turn with numbers is a turn.** -/
theorem numbered_turn (g : Grammar) (w : Worklist) (items : ItemSet) :
    (w.turn g items).numbered = w.numbered.turn g items (UInt32.ofNat w.states.size) := by
  unfold NumberedWorklist.turn
  rw [edges_numbered]
  simp [numbered, turn, Automaton.numbered, State.numbered, List.zipIdx_append]

/-- At the start both worklists are the same. -/
theorem numbered_start (g : Grammar) : (start g).numbered = NumberedWorklist.start g := by
  unfold NumberedWorklist.start
  exact (congrArg Prod.snd (intern_numbered ⟨#[], .empty⟩ (Automaton.startItems g))).symm

/-- Runs without numbers are runs with numbers. -/
theorem Runs.numbered {taken all : List ItemSet} (h : Runs g taken all w) :
    NumberedWorklist.Runs g w.numbered := by
  induction h with
  | start =>
    rw [numbered_start]
    exact .start
  | @turn taken all w items _ hnext ih =>
    rw [numbered_turn]
    exact ih.turn (by rw [next?_numbered, hnext]; rfl)

end Worklist

namespace NumberedWorklist

variable {g : Grammar} {v : NumberedWorklist}

/-- **All runs with numbers are runs without numbers.** -/
theorem Runs.exists_numbered_eq (h : Runs g v) :
    ∃ taken all w, Worklist.Runs g taken all w ∧ w.numbered = v := by
  induction h with
  | start => exact ⟨_, _, _, .start, Worklist.numbered_start g⟩
  | @turn v items number _ hnext ih =>
    obtain ⟨taken, all, w, hruns, rfl⟩ := ih
    rw [Worklist.next?_numbered, Option.map_eq_some_iff] at hnext
    obtain ⟨items', hnext, heq⟩ := hnext
    obtain ⟨rfl, rfl⟩ := Prod.mk.inj heq
    exact ⟨_, _, _, hruns.turn hnext, Worklist.numbered_turn g w items'⟩

/-- **When nothing is left, there are the states of the automaton under their numbers.** -/
theorem Runs.eq_of_next?_eq_none (wf : g.WellFormed) (h : Runs g v) (hend : v.next? = none) :
    v.taken = (Automaton.ofGrammar g).numbered ∧
      v.counter = .behind (Automaton.ofGrammar g).states.size := by
  obtain ⟨taken, all, w, hruns, rfl⟩ := h.exists_numbered_eq
  rw [Worklist.next?_numbered, Option.map_eq_none_iff] at hend
  have hstates : (⟨w.states⟩ : Automaton) = Automaton.ofGrammar g := by
    rw [hruns.states_eq wf hend]
  have hsize : w.found.size = w.states.size := by
    rw [← Numbering.length_toList, hruns.toList_found, hruns.size_states, hruns.next?_eq_none.mp hend]
  constructor
  · exact congrArg Automaton.numbered hstates
  · show Counter.behind w.found.size = _
    rw [hsize, hruns.states_eq wf hend]

/-- The construction ends. -/
theorem exists_runs_next?_eq_none (wf : g.WellFormed) : ∃ w, Runs g w ∧ w.next? = none := by
  obtain ⟨taken, all, w, hruns, hend⟩ := Worklist.exists_runs_next?_eq_none wf
  exact ⟨w.numbered, hruns.numbered, by rw [Worklist.next?_numbered, hend]; rfl⟩

/-- **At the end the counter has started again when there are `2 ^ 32` states or more.** -/
theorem Runs.wrapped_iff (wf : g.WellFormed) (h : Runs g v) (hend : v.next? = none) :
    v.counter.wrapped = true ↔ 2 ^ 32 ≤ (Automaton.ofGrammar g).states.size := by
  rw [(h.eq_of_next?_eq_none wf hend).2]
  exact decide_eq_true_iff

/-- The numbers of the states come from the counter. -/
theorem map_number_numbered (a : Automaton) :
    a.numbered.map (·.number) = (List.range a.states.size).map UInt32.ofNat := by
  calc a.numbered.map (·.number) = (a.states.toList.zipIdx.map Prod.snd).map UInt32.ofNat := by
        rw [Automaton.numbered, List.map_map, List.map_map]
        rfl
    _ = (List.range a.states.size).map UInt32.ofNat := by
        rw [List.zipIdx_map_snd, Array.length_toList, List.range_eq_range']

/-- They are different when there are `2 ^ 32` states or less. -/
theorem nodup_numbers_iff (a : Automaton) :
    (a.numbered.map (·.number)).Nodup ↔ a.states.size ≤ 2 ^ 32 := by
  rw [map_number_numbered, Counter.nodup_map_ofNat_range]

/-- **At the end the states have different numbers when there are `2 ^ 32` of them or less.** -/
theorem Runs.nodup_iff (wf : g.WellFormed) (h : Runs g v) (hend : v.next? = none) :
    (v.taken.map (·.number)).Nodup ↔ (Automaton.ofGrammar g).states.size ≤ 2 ^ 32 := by
  rw [(h.eq_of_next?_eq_none wf hend).1, nodup_numbers_iff]

/-- No number is kept twice. -/
theorem nodup_keys_kept (v : NumberedWorklist) : v.kept.keys.Nodup := by
  unfold kept
  generalize v.taken.map (fun s => (s.number, s)) = l
  -- setting an entry keeps the keys different
  have hfold (m : OrderedMap UInt32 NumberedState) (hm : m.keys.Nodup) :
      (l.foldl (fun m e => m.insert e.1 e.2) m).keys.Nodup := by
    induction l generalizing m with
    | nil => exact hm
    | cons e l ih => exact ih _ (OrderedMap.nodup_keys_insert hm e.1 e.2)
  exact hfold {} List.nodup_nil

/-- **All states are kept when they have different numbers.** -/
theorem kept_eq (h : (v.taken.map (·.number)).Nodup) :
    v.kept = ⟨v.taken.map fun s => (s.number, s)⟩ := by
  unfold kept
  rw [OrderedMap.foldl_insert_eq]
  · rfl
  · simpa [Function.comp_def] using h

/-- What the numbers of the states are like when they come from a counter of `32` bits. -/
structure CountsStates (g : Grammar) : Prop where
  /-- the construction ends -/
  ends : ∃ w, Runs g w ∧ w.next? = none
  /-- then it has made the states of the automaton, under their numbers modulo `2 ^ 32` -/
  taken : ∀ w, Runs g w → w.next? = none → w.taken = (Automaton.ofGrammar g).numbered
  /-- the counter has started again when there are `2 ^ 32` states or more -/
  wrapped_iff : ∀ w, Runs g w → w.next? = none →
    (w.counter.wrapped = true ↔ 2 ^ 32 ≤ (Automaton.ofGrammar g).states.size)
  /-- the numbers are different when there are `2 ^ 32` states or less -/
  nodup_iff : ∀ w, Runs g w → w.next? = none →
    ((w.taken.map (·.number)).Nodup ↔ (Automaton.ofGrammar g).states.size ≤ 2 ^ 32)
  /-- and only then no state takes the place of another one -/
  kept_iff : ∀ w, Runs g w → w.next? = none →
    (w.kept.entries.map (·.2) = w.taken ↔ (Automaton.ofGrammar g).states.size ≤ 2 ^ 32)
  /-- there are at most as many states as non-empty sets of items with the same symbol before the
  marker, and the first one -/
  size_le : (Automaton.ofGrammar g).states.size ≤
    1 + ∑ x ∈ g.allSymbols.toFinset, (2 ^ (g.itemsBehind x).card - 1)
  /-- so the counter does not start again when no symbol is written more than `15` times -/
  not_wrapped : (∀ x ∈ g.allSymbols, (g.itemsBehind x).card ≤ 15) →
    ∀ w, Runs g w → w.next? = none →
      w.counter.wrapped = false ∧ (w.taken.map (·.number)).Nodup

/-- **The counter of states starts again exactly when there are `2 ^ 32` states or more.** -/
theorem countsStates {defs : List RuleDef} {g : Grammar} (h : Grammar.augment defs = .ok g) :
    CountsStates g := by
  have wf := Grammar.wellFormed_of_augment h
  constructor
  case ends => exact exists_runs_next?_eq_none wf
  case taken => exact fun w hruns hend => (hruns.eq_of_next?_eq_none wf hend).1
  case wrapped_iff => exact fun w hruns hend => hruns.wrapped_iff wf hend
  case nodup_iff => exact fun w hruns hend => hruns.nodup_iff wf hend
  case kept_iff =>
    intro w hruns hend
    rw [← hruns.nodup_iff wf hend]
    constructor
    · intro hkept
      have hlength : w.kept.keys.length = w.taken.length := by
        rw [← hkept, OrderedMap.keys, List.length_map, List.length_map]
      have hsize : w.taken.length = (Automaton.ofGrammar g).states.size := by
        simp [(hruns.eq_of_next?_eq_none wf hend).1, Automaton.numbered]
      rw [hruns.nodup_iff wf hend, ← hsize, ← hlength]
      exact Counter.length_le_of_nodup (nodup_keys_kept w)
    · intro hnumbers
      rw [kept_eq hnumbers]
      simp [Function.comp_def]
  case size_le => exact Automaton.size_le_sum wf
  case not_wrapped =>
    intro hfew w hruns hend
    have hlt := Automaton.size_lt_of_card_itemsBehind_le h hfew
    constructor
    · rw [← Bool.not_eq_true, hruns.wrapped_iff wf hend]
      exact Nat.not_le_of_lt hlt
    · exact (hruns.nodup_iff wf hend).mpr (Nat.le_of_lt hlt)

/-- With few items the counter does not start again. -/
theorem countsStates_starRules : ∃ g, Grammar.augment starRules = .ok g ∧ CountsStates g ∧
    ∀ w, Runs g w → w.next? = none → w.counter.wrapped = false := by
  obtain ⟨g, hg⟩ : ∃ g, Grammar.augment starRules = .ok g :=
    Grammar.exists_augment (by decide) (by unfold RuleDef.IsValid; decide) (by decide) (by decide)
  have hcounts := countsStates hg
  have hsame := Grammar.sameNumbers_ofDefs hg
  have hitems : Automaton.itemCount (.ofDefs starRules) ≤ 15 := by decide
  rw [← hsame.itemCount] at hitems
  have hfew (x : Symbol) (_ : x ∈ g.allSymbols) : (g.itemsBehind x).card ≤ 15 :=
    (g.card_itemsBehind_le x).trans hitems
  exact ⟨g, hg, hcounts, fun w hruns hend => (hcounts.not_wrapped hfew w hruns hend).1⟩

end NumberedWorklist

end ShiftReduce
