import ShiftReduce.Proofs.StateCounter

/-! # The maps of the automaton

While the automaton is made, maps are filled: one from the item sets that have been found to their numbers,
one from the numbers to the states, and in each state one from the terminals and one from the nonterminals
that are expected to the numbers of the states behind them. The transitions are listed on the side.

Here this is done with numbers from the counter (`Assembly`). An item set is taken up in two steps: its items
are gone through once, for the symbols that are expected and for the rules that can be reduced (`scan`), and
then the symbols, for the entries of the maps (`link`). A turn fills the maps with what a turn of
`NumberedWorklist` makes (`Assembly.turn_view`). So at the end the maps hold the states, the edges and the
transitions of the automaton, with its numbers as numbers of `32` bits, and as long as there are no more than
`2 ^ 32` states no entry takes the place of another one (`Assembly.HoldsAutomaton`). -/

namespace ShiftReduce

/-! ## Maps -/

namespace OrderedMap

variable {κ α : Type} [DecidableEq κ]

/-- Sets entries one by one. -/
def insertAll (m : OrderedMap κ α) (l : List (κ × α)) : OrderedMap κ α :=
  l.foldl (fun m e => m.insert e.1 e.2) m

/-- No entries leave a map as it is. -/
@[simp] theorem insertAll_nil (m : OrderedMap κ α) : m.insertAll [] = m := rfl

/-- Entries are inserted one after the other. -/
@[simp] theorem insertAll_cons (m : OrderedMap κ α) (e : κ × α) (l : List (κ × α)) :
    m.insertAll (e :: l) = (m.insert e.1 e.2).insertAll l := rfl

/-- Entries are inserted list by list. -/
@[simp] theorem insertAll_append (m : OrderedMap κ α) (l l' : List (κ × α)) :
    m.insertAll (l ++ l') = (m.insertAll l).insertAll l' :=
  List.foldl_append

/-- Entries with different keys are all kept. -/
theorem insertAll_of_nodup {l : List (κ × α)} (h : (l.map (·.1)).Nodup) :
    ({} : OrderedMap κ α).insertAll l = ⟨l⟩ :=
  foldl_insert_eq h

end OrderedMap

/-- A state as it is entered. -/
structure StateMaps where
  /-- the items that are valid here -/
  items : ItemSet
  /-- for each terminal that is expected the number of the state behind it -/
  shifts : OrderedMap Terminal UInt32 := {}
  /-- for each nonterminal that is expected the number of the state behind it -/
  gotos : OrderedMap Nonterminal UInt32 := {}
  /-- the rules that can be reduced here -/
  reduces : List Nat := []

/-- A transition between numbers. -/
structure NumberedTransition where
  /-- the state that is left -/
  source : UInt32
  /-- the state that is entered -/
  target : UInt32
  /-- the symbol that is read -/
  symbol : Symbol

/-- An automaton under construction, as the maps that are filled. -/
structure Assembly where
  /-- the item sets that have been found, with their numbers -/
  found : OrderedMap ItemSet UInt32 := {}
  /-- the counter -/
  counter : Counter := {}
  /-- how many item sets have been taken up -/
  current : Nat := 0
  /-- the states by number -/
  states : OrderedMap UInt32 StateMaps := {}
  /-- the transitions, in the order in which they were found -/
  transitions : List NumberedTransition := []

namespace Assembly

/-- The symbols that some items expect and the rules of those that expect nothing, behind what has been met
before. A symbol is met but once. -/
def scan (g : Grammar) : List Item → List Symbol → List Nat → List Symbol × List Nat
  | [], symbols, reduces => (symbols, reduces)
  | item :: rest, symbols, reduces =>
    match item.next? g with
    | some x => scan g rest (if x ∈ symbols then symbols else symbols ++ [x]) reduces
    | none => scan g rest symbols (reduces ++ [item.rule])

/-- The number of an item set, from the counter when it is new. -/
def intern (a : Assembly) (s : ItemSet) : UInt32 × Assembly :=
  match a.found.get? s with
  | some number => (number, a)
  | none => (a.counter.next,
      { a with found := a.found.insert s a.counter.next, counter := a.counter.advance })

/-- The start items have the first number. -/
def start (g : Grammar) : Assembly := (intern {} (Automaton.startItems g)).2

/-- The item set that is taken up next with its number, if one is left. -/
def next? (a : Assembly) : Option (ItemSet × UInt32) := a.found.entries[a.current]?

/-- Enters where a symbol leads from a state, unless it leads nowhere. -/
def link (g : Grammar) (number : UInt32) (e : Assembly × StateMaps) (symbol : Symbol) :
    Assembly × StateMaps :=
  let behind := e.2.items.goto g symbol
  if behind.isEmpty then e
  else
    let (target, a) := e.1.intern behind
    ({ a with transitions := a.transitions ++ [⟨number, target, symbol⟩] },
      match symbol with
      | .terminal t => { e.2 with shifts := e.2.shifts.insert t target }
      | .nonterminal n => { e.2 with gotos := e.2.gotos.insert n target })

/-- Takes up an item set. -/
def turn (g : Grammar) (a : Assembly) (items : ItemSet) (number : UInt32) : Assembly :=
  let (symbols, reduces) := scan g items.items [] []
  let (a, state) :=
    symbols.foldl (link g number) ({ a with current := a.current + 1 }, { items, reduces })
  { a with states := a.states.insert number state }

/-- The runs of the construction. -/
inductive Runs (g : Grammar) : Assembly → Prop
  /-- at first the start items are found -/
  | start : Runs g (start g)
  /-- the next item set is taken up -/
  | turn {a : Assembly} {items : ItemSet} {number : UInt32} (h : Runs g a)
      (hnext : a.next? = some (items, number)) : Runs g (a.turn g items number)

/-! ## Scans -/

variable {g : Grammar}

/-- **Going through the items finds what they expect and what is complete.** -/
theorem scan_eq {l : List Item} (hrules : ∀ i ∈ l, ∃ r, g.rule? i.rule = some r) (met : List Symbol)
    (reduces : List Nat) : scan g l met.eraseDups reduces =
      ((met ++ l.filterMap (·.next? g)).eraseDups,
        reduces ++ (l.filter (·.isComplete g)).map (·.rule)) := by
  induction l generalizing met reduces with
  | nil => simp [scan]
  | cons item l ih =>
    obtain ⟨r, hr⟩ := hrules item (List.mem_cons_self ..)
    have ih := ih fun i hi => hrules i (List.mem_cons_of_mem _ hi)
    have hcomplete := Item.isComplete_eq hr
    unfold scan
    cases hnext : item.next? g with
    | some x =>
      have hmet : (if x ∈ met.eraseDups then met.eraseDups else met.eraseDups ++ [x]) =
          (met ++ [x]).eraseDups := by
        simp only [eraseDups_concat, List.mem_eraseDups]
      rw [hnext, Option.isNone_some] at hcomplete
      dsimp only
      rw [hmet, ih]
      simp [hnext, hcomplete]
    | none =>
      rw [hnext, Option.isNone_none] at hcomplete
      dsimp only
      rw [ih]
      simp [hnext, hcomplete]

/-- The items of a set tell what the set expects and which of its rules are complete. -/
theorem scan_items {s : ItemSet} (hrules : ∀ i ∈ s, ∃ r, g.rule? i.rule = some r) :
    scan g s.items [] [] = (s.expected g, s.completeRules g) :=
  scan_eq hrules [] []

end Assembly

/-! ## What a worklist enters -/

/-- The edges on terminals. -/
def shiftEntries (edges : List (Symbol × UInt32)) : List (Terminal × UInt32) :=
  edges.filterMap fun (x, target) => x.terminal?.map (·, target)

/-- The edges on nonterminals. -/
def gotoEntries (edges : List (Symbol × UInt32)) : List (Nonterminal × UInt32) :=
  edges.filterMap fun (x, target) => x.nonterminal?.map (·, target)

/-- Different edges on symbols of one kind have different entries. -/
theorem nodup_keys_filterMap {κ : Type} {key? : Symbol → Option κ}
    (hkey : ∀ x y k, key? x = some k → key? y = some k → x = y) {edges : List (Symbol × UInt32)}
    (h : (edges.map (·.1)).Nodup) :
    ((edges.filterMap fun (x, target) => (key? x).map (·, target)).map (·.1)).Nodup := by
  have hkeys : (edges.filterMap fun (x, target) => (key? x).map (·, target)).map (·.1) =
      (edges.map (·.1)).filterMap key? := by
    simp [List.map_filterMap, List.filterMap_map, Function.comp_def]
  rw [hkeys]
  exact h.filterMap fun x y k hx hy => hkey x y k hx hy

/-- Different edges are on different terminals. -/
theorem nodup_shiftEntries {edges : List (Symbol × UInt32)} (h : (edges.map (·.1)).Nodup) :
    ((shiftEntries edges).map (·.1)).Nodup := by
  refine nodup_keys_filterMap (fun x y t hx hy => ?_) h
  rw [Symbol.terminal?_eq_some.mp hx, Symbol.terminal?_eq_some.mp hy]

/-- Different edges are on different nonterminals. -/
theorem nodup_gotoEntries {edges : List (Symbol × UInt32)} (h : (edges.map (·.1)).Nodup) :
    ((gotoEntries edges).map (·.1)).Nodup := by
  refine nodup_keys_filterMap (fun x y n hx hy => ?_) h
  rw [Symbol.nonterminal?_eq_some.mp hx, Symbol.nonterminal?_eq_some.mp hy]

namespace NumberedState

/-- A state with its edges in maps. -/
def maps (g : Grammar) (s : NumberedState) : StateMaps where
  items := s.items
  shifts := ⟨shiftEntries s.edges⟩
  gotos := ⟨gotoEntries s.edges⟩
  reduces := s.items.completeRules g

/-- The transitions that leave a state. -/
def outgoing (s : NumberedState) : List NumberedTransition :=
  s.edges.map fun (x, target) => ⟨s.number, target, x⟩

end NumberedState

namespace NumberedWorklist

variable {g : Grammar} {items : ItemSet}

/-- Numbering an item set takes none up. -/
@[simp] theorem taken_intern (w : NumberedWorklist) (s : ItemSet) : (w.intern s).2.taken = w.taken := by
  unfold intern
  split <;> rfl

/-- The first expected symbol is numbered before the others. -/
theorem edges_cons (symbol : Symbol) (symbols : List Symbol) (w : NumberedWorklist) :
    edges g items (symbol :: symbols) w =
      ((symbol, (w.intern (items.goto g symbol)).1) ::
          (edges g items symbols (w.intern (items.goto g symbol)).2).1,
        (edges g items symbols (w.intern (items.goto g symbol)).2).2) := rfl

/-- Edges do not take anything up. -/
@[simp] theorem taken_edges (symbols : List Symbol) (w : NumberedWorklist) :
    (edges g items symbols w).2.taken = w.taken := by
  induction symbols generalizing w with
  | nil => rfl
  | cons symbol symbols ih => rw [edges_cons, ih, taken_intern]

/-- There is an edge on each symbol. -/
theorem edges_keys (symbols : List Symbol) (w : NumberedWorklist) :
    (edges g items symbols w).1.map (·.1) = symbols := by
  induction symbols generalizing w with
  | nil => rfl
  | cons symbol symbols ih => rw [edges_cons, List.map_cons, ih]

/-- The rules of the items that are taken up are known. -/
theorem Runs.exists_rule? (wf : g.WellFormed) {w : NumberedWorklist} (h : Runs g w) {number : UInt32}
    (hnext : w.next? = some (items, number)) : ∀ i ∈ items, ∃ r, g.rule? i.rule = some r := by
  obtain ⟨taken, all, v, hruns, rfl⟩ := h.exists_numbered_eq
  rw [Worklist.next?_numbered, Option.map_eq_some_iff] at hnext
  obtain ⟨items', hnext, heq⟩ := hnext
  obtain ⟨rfl, -⟩ := Prod.mk.inj heq
  have hreached := hruns.isReached _ (List.mem_of_getElem? (hruns.next?_eq_some.mp hnext))
  intro i hi
  obtain ⟨-, r, hr, -⟩ := Automaton.mem_usableItems_of_isReached wf hreached i hi
  exact ⟨r, hr⟩

end NumberedWorklist

/-! ## Turns -/

namespace Assembly

variable {g : Grammar} {items : ItemSet} {number : UInt32}

/-- The maps that are filled with what a worklist has made. -/
def view (g : Grammar) (w : NumberedWorklist) : Assembly where
  found := w.found
  counter := w.counter
  current := w.taken.length
  states := ({} : OrderedMap UInt32 StateMaps).insertAll (w.taken.map fun s => (s.number, s.maps g))
  transitions := w.taken.flatMap (·.outgoing)

/-- An item set gets the same number, whatever else has been entered. -/
theorem intern_eq {a : Assembly} {w : NumberedWorklist} (hfound : a.found = w.found)
    (hcounter : a.counter = w.counter) (s : ItemSet) : a.intern s = ((w.intern s).1,
      { a with found := (w.intern s).2.found, counter := (w.intern s).2.counter }) := by
  unfold intern NumberedWorklist.intern
  rw [hfound, hcounter]
  cases w.found.get? s with
  | some number =>
    dsimp only
    rw [← hfound, ← hcounter]
  | none => rfl

/-- A symbol that leads somewhere gets its entry and its transition. -/
theorem link_eq {a : Assembly} {w : NumberedWorklist} (hfound : a.found = w.found)
    (hcounter : a.counter = w.counter) {state : StateMaps} (hitems : state.items = items) {x : Symbol}
    (hgoto : (items.goto g x).isEmpty = false) :
    link g number (a, state) x =
      ({ a with
          found := (w.intern (items.goto g x)).2.found
          counter := (w.intern (items.goto g x)).2.counter
          transitions := a.transitions ++ [⟨number, (w.intern (items.goto g x)).1, x⟩] },
        { state with
          shifts := state.shifts.insertAll (shiftEntries [(x, (w.intern (items.goto g x)).1)])
          gotos := state.gotos.insertAll (gotoEntries [(x, (w.intern (items.goto g x)).1)]) }) := by
  unfold link
  simp only [hitems, hgoto, Bool.false_eq_true, if_false, intern_eq hfound hcounter]
  cases x <;> rfl

/-- **The symbols of a state are entered one by one as its edges are made.** -/
theorem foldl_link {symbols : List Symbol} (hgoto : ∀ x ∈ symbols, (items.goto g x).isEmpty = false)
    {a : Assembly} {w : NumberedWorklist} (hfound : a.found = w.found) (hcounter : a.counter = w.counter)
    {state : StateMaps} (hitems : state.items = items) :
    symbols.foldl (link g number) (a, state) =
      ({ a with
          found := (NumberedWorklist.edges g items symbols w).2.found
          counter := (NumberedWorklist.edges g items symbols w).2.counter
          transitions := a.transitions ++
            (NumberedWorklist.edges g items symbols w).1.map fun e => ⟨number, e.2, e.1⟩ },
        { state with
          shifts := state.shifts.insertAll
            (shiftEntries (NumberedWorklist.edges g items symbols w).1)
          gotos := state.gotos.insertAll
            (gotoEntries (NumberedWorklist.edges g items symbols w).1) }) := by
  induction symbols generalizing a w state with
  | nil =>
    simp only [List.foldl_nil, NumberedWorklist.edges, shiftEntries, gotoEntries, List.filterMap_nil,
      OrderedMap.insertAll_nil, List.map_nil, List.append_nil, ← hfound, ← hcounter]
  | cons x symbols ih =>
    have hrest (y : Symbol) (hy : y ∈ symbols) := hgoto y (List.mem_cons_of_mem _ hy)
    rw [List.foldl_cons, link_eq hfound hcounter hitems (hgoto x (List.mem_cons_self ..)), ih hrest rfl rfl]
    · rw [NumberedWorklist.edges_cons]
      cases x <;> simp [shiftEntries, gotoEntries, Symbol.terminal?, Symbol.nonterminal?]
    · exact hitems

/-- **A turn enters what a turn of the worklist makes.** -/
theorem turn_view (hrules : ∀ i ∈ items, ∃ r, g.rule? i.rule = some r) (w : NumberedWorklist)
    (number : UInt32) : (view g w).turn g items number = view g (w.turn g items number) := by
  have hgoto (x : Symbol) (hx : x ∈ items.expected g) : (items.goto g x).isEmpty = false := by
    obtain ⟨i, hi, hnext⟩ := ItemSet.mem_expected.mp hx
    exact List.isEmpty_eq_false_iff_exists_mem.mpr ⟨_, ItemSet.advance_mem_goto hi hnext⟩
  generalize hout : NumberedWorklist.edges g items (items.expected g) w = out
  -- no entry takes the place of another one, as the symbols are different
  have hnodup : (out.1.map (·.1)).Nodup := by
    rw [← hout, NumberedWorklist.edges_keys]
    exact nodup_eraseDups _
  have hshifts := OrderedMap.insertAll_of_nodup (nodup_shiftEntries hnodup)
  have hgotos := OrderedMap.insertAll_of_nodup (nodup_gotoEntries hnodup)
  have htaken : out.2.taken = w.taken := by rw [← hout, NumberedWorklist.taken_edges]
  unfold turn
  rw [scan_items hrules]
  dsimp only
  rw [foldl_link hgoto (w := w) rfl rfl rfl, hout]
  dsimp only
  rw [hshifts, hgotos]
  simp [view, NumberedWorklist.turn, NumberedState.maps, NumberedState.outgoing, hout, htaken]

/-! ## Runs -/

/-- The assembly begins where the worklist does. -/
theorem view_start (g : Grammar) : view g (NumberedWorklist.start g) = start g := by
  unfold start
  rw [intern_eq (w := {}) rfl rfl]
  rfl

/-- **All runs fill the maps with what a run of the worklist makes.** -/
theorem Runs.exists_view_eq (wf : g.WellFormed) {a : Assembly} (h : Runs g a) :
    ∃ w, NumberedWorklist.Runs g w ∧ view g w = a := by
  induction h with
  | start => exact ⟨_, .start, view_start g⟩
  | @turn a items number _ hnext ih =>
    obtain ⟨w, hruns, rfl⟩ := ih
    have hnext : w.next? = some (items, number) := hnext
    exact ⟨_, hruns.turn hnext, (turn_view (hruns.exists_rule? wf hnext) w number).symm⟩

/-- What a run of the worklist makes is entered by a run. -/
theorem runs_view (wf : g.WellFormed) {w : NumberedWorklist} (h : NumberedWorklist.Runs g w) :
    Runs g (view g w) := by
  induction h with
  | start =>
    rw [view_start]
    exact .start
  | @turn w items number hruns hnext ih =>
    rw [← turn_view (hruns.exists_rule? wf hnext)]
    exact ih.turn hnext

end Assembly

/-! ## The maps of the automaton -/

/-- A transition between the numbers of its states. -/
def Transition.numbered (t : Transition) : NumberedTransition :=
  ⟨UInt32.ofNat t.source, UInt32.ofNat t.target, t.symbol⟩

namespace State

/-- A state with its edges in maps. -/
def maps (g : Grammar) (s : State) : StateMaps where
  items := s.items
  shifts := ⟨s.shifts.map fun e => (e.1, UInt32.ofNat e.2)⟩
  gotos := ⟨s.gotos.map fun e => (e.1, UInt32.ofNat e.2)⟩
  reduces := s.reduces g

/-- The machine number of a state leaves its maps as they are. -/
theorem maps_numbered (g : Grammar) (s : State) (i : Nat) : (s.numbered i).maps g = s.maps g := by
  simp [NumberedState.maps, numbered, maps, shiftEntries, gotoEntries, shifts, gotos, reduces,
    List.map_filterMap, List.filterMap_map, Function.comp_def]

/-- The shifts of a state are its transitions on terminals. -/
theorem entries_shifts_maps (g : Grammar) (s : State) (i : Nat) : (s.maps g).shifts.entries =
    ((s.outgoing i).map Transition.numbered).filterMap fun t =>
      t.symbol.terminal?.map (·, t.target) := by
  simp [maps, shifts, outgoing, Transition.numbered, List.map_filterMap, List.filterMap_map,
    Function.comp_def]

/-- The gotos of a state are its transitions on nonterminals. -/
theorem entries_gotos_maps (g : Grammar) (s : State) (i : Nat) : (s.maps g).gotos.entries =
    ((s.outgoing i).map Transition.numbered).filterMap fun t =>
      t.symbol.nonterminal?.map (·, t.target) := by
  simp [maps, gotos, outgoing, Transition.numbered, List.map_filterMap, List.filterMap_map,
    Function.comp_def]

/-- A state's transitions are numbered like the state. -/
theorem outgoing_numbered (s : State) (i : Nat) :
    (s.numbered i).outgoing = (s.outgoing i).map Transition.numbered := by
  simp [NumberedState.outgoing, numbered, outgoing, Transition.numbered]

end State

namespace Assembly

/-- What the maps hold at the end of the construction. -/
structure HoldsAutomaton (g : Grammar) (a : Assembly) : Prop where
  /-- each item set has been found once, with the number of its state -/
  found : a.found.entries =
    (Automaton.ofGrammar g).states.toList.zipIdx.map fun e => (e.1.items, UInt32.ofNat e.2)
  /-- the transitions are those of the automaton, in the same order -/
  transitions : a.transitions = (Automaton.ofGrammar g).transitions.map Transition.numbered
  /-- with no more than `2 ^ 32` states, the states are those of the automaton, in the same order, with its
  edges in their maps -/
  states : (Automaton.ofGrammar g).states.size ≤ 2 ^ 32 → a.states.entries =
    (Automaton.ofGrammar g).states.toList.zipIdx.map fun e => (UInt32.ofNat e.2, e.1.maps g)
  /-- then their numbers go from `0` on without a gap -/
  numbers : (Automaton.ofGrammar g).states.size ≤ 2 ^ 32 →
    a.states.keys.map UInt32.toNat = List.range (Automaton.ofGrammar g).states.size
  /-- a state is found under its number -/
  get?_states : (Automaton.ofGrammar g).states.size ≤ 2 ^ 32 → ∀ i s,
    (Automaton.ofGrammar g).state? i = some s → a.states.get? (UInt32.ofNat i) = some (s.maps g)
  /-- the shifts of a state are its transitions on terminals -/
  shifts : (Automaton.ofGrammar g).states.size ≤ 2 ^ 32 → ∀ number state,
    a.states.get? number = some state → state.shifts.entries =
      (a.transitions.filter fun t => t.source = number).filterMap fun t =>
        t.symbol.terminal?.map (·, t.target)
  /-- the gotos of a state are its transitions on nonterminals -/
  gotos : (Automaton.ofGrammar g).states.size ≤ 2 ^ 32 → ∀ number state,
    a.states.get? number = some state → state.gotos.entries =
      (a.transitions.filter fun t => t.source = number).filterMap fun t =>
        t.symbol.nonterminal?.map (·, t.target)

variable {g : Grammar} {a : Assembly}

/-- Numbers of `32` bits tell the states apart when there are no more than `2 ^ 32` of them. -/
theorem ofNat_inj_of_lt {i j n : Nat} (hn : n ≤ 2 ^ 32) (hi : i < n) (hj : j < n) :
    UInt32.ofNat i = UInt32.ofNat j ↔ i = j := by
  rw [Counter.ofNat_inj]
  omega

/-- The transitions that leave the number of a state are those that leave the state. -/
theorem filter_transitions_numbered (hsize : (Automaton.ofGrammar g).states.size ≤ 2 ^ 32) {i : Nat}
    {s : State} (hs : (Automaton.ofGrammar g).state? i = some s) :
    (((Automaton.ofGrammar g).transitions.map Transition.numbered).filter fun t =>
      t.source = UInt32.ofNat i) = (s.outgoing i).map Transition.numbered := by
  have hlt {k : Nat} {s : State} (hs : (Automaton.ofGrammar g).state? k = some s) :
      k < (Automaton.ofGrammar g).states.size := (Array.getElem?_eq_some_iff.mp hs).1
  rw [← Automaton.filter_transitions hs, List.filter_map]
  refine congrArg (List.map _) (List.filter_congr fun t ht => ?_)
  obtain ⟨s', hs', -⟩ := Automaton.mem_transitions.mp ht
  exact decide_eq_decide.mpr (ofNat_inj_of_lt hsize (hlt hs') (hlt hs))

section End

variable {w : NumberedWorklist}

/-- At the end the item sets that have been found are those of the states. -/
theorem entries_found (wf : g.WellFormed) (h : NumberedWorklist.Runs g w) (hend : w.next? = none) :
    w.found.entries =
      (Automaton.ofGrammar g).states.toList.zipIdx.map fun e => (e.1.items, UInt32.ofNat e.2) := by
  obtain ⟨taken, all, v, hruns, rfl⟩ := h.exists_numbered_eq
  rw [Worklist.next?_numbered, Option.map_eq_none_iff] at hend
  have hitems : v.found.toList = (Automaton.ofGrammar g).states.toList.map (·.items) := by
    rw [hruns.toList_found, ← hruns.next?_eq_none.mp hend, ← hruns.items_states, hruns.states_eq wf hend]
  show v.found.toList.zipIdx.map (fun e => (e.1, UInt32.ofNat e.2)) = _
  rw [hitems, List.zipIdx_map, List.map_map]
  rfl

/-- At the end the transitions are those of the automaton. -/
theorem transitions_view (wf : g.WellFormed) (h : NumberedWorklist.Runs g w) (hend : w.next? = none) :
    (view g w).transitions = (Automaton.ofGrammar g).transitions.map Transition.numbered := by
  show w.taken.flatMap (·.outgoing) = _
  rw [(h.eq_of_next?_eq_none wf hend).1, Automaton.numbered, Automaton.transitions_eq, List.flatMap_map,
    List.map_flatMap]
  exact List.flatMap_congr fun e _ => e.1.outgoing_numbered e.2

/-- At the end no state has taken the place of another one, if there are no more than `2 ^ 32`. -/
theorem entries_states (wf : g.WellFormed) (h : NumberedWorklist.Runs g w) (hend : w.next? = none)
    (hsize : (Automaton.ofGrammar g).states.size ≤ 2 ^ 32) : (view g w).states.entries =
      (Automaton.ofGrammar g).states.toList.zipIdx.map fun e => (UInt32.ofNat e.2, e.1.maps g) := by
  have hnodup : ((w.taken.map fun s => (s.number, s.maps g)).map (·.1)).Nodup := by
    rw [List.map_map]
    exact (h.nodup_iff wf hend).mpr hsize
  unfold view
  rw [OrderedMap.insertAll_of_nodup hnodup]
  show w.taken.map _ = _
  rw [(h.eq_of_next?_eq_none wf hend).1, Automaton.numbered, List.map_map]
  exact List.map_congr_left fun e _ => congrArg (Prod.mk _) (e.1.maps_numbered g e.2)

/-- Then their numbers come from the counter one after the other. -/
theorem keys_states (wf : g.WellFormed) (h : NumberedWorklist.Runs g w) (hend : w.next? = none)
    (hsize : (Automaton.ofGrammar g).states.size ≤ 2 ^ 32) : (view g w).states.keys =
      (List.range (Automaton.ofGrammar g).states.size).map UInt32.ofNat := by
  rw [OrderedMap.keys, entries_states wf h hend hsize, ← NumberedWorklist.map_number_numbered,
    Automaton.numbered, List.map_map, List.map_map]
  rfl

/-- A number leads to a state when it is the number of one. -/
theorem get?_states_iff (wf : g.WellFormed) (h : NumberedWorklist.Runs g w) (hend : w.next? = none)
    (hsize : (Automaton.ofGrammar g).states.size ≤ 2 ^ 32) {number : UInt32} {state : StateMaps} :
    (view g w).states.get? number = some state ↔ ∃ i s, (Automaton.ofGrammar g).state? i = some s ∧
      UInt32.ofNat i = number ∧ s.maps g = state := by
  have hnodup : (view g w).states.keys.Nodup := by
    rw [keys_states wf h hend hsize]
    exact Counter.nodup_map_ofNat_range.mpr hsize
  rw [OrderedMap.get?_eq_some_iff hnodup, entries_states wf h hend hsize]
  simp only [List.mem_map, Prod.exists, Prod.mk.injEq, List.mem_zipIdx_iff_getElem?,
    Array.getElem?_toList, Automaton.state?]
  exact exists_comm

end End

/-- **At the end the maps hold the automaton.** -/
theorem Runs.holdsAutomaton (wf : g.WellFormed) (h : Runs g a) (hend : a.next? = none) :
    HoldsAutomaton g a := by
  obtain ⟨w, hruns, rfl⟩ := h.exists_view_eq wf
  have hend : w.next? = none := hend
  have htransitions := transitions_view wf hruns hend
  constructor
  case found => exact entries_found wf hruns hend
  case transitions => exact htransitions
  case states => exact entries_states wf hruns hend
  case numbers =>
    intro hsize
    have htoNat (i : Nat) (hi : i ∈ List.range (Automaton.ofGrammar g).states.size) :
        (UInt32.ofNat i).toNat = i := by
      rw [List.mem_range] at hi
      rw [UInt32.toNat_ofNat', Nat.mod_eq_of_lt (by omega)]
    rw [keys_states wf hruns hend hsize, List.map_map]
    exact (List.map_congr_left htoNat).trans (List.map_id _)
  case get?_states =>
    exact fun hsize i s hs => (get?_states_iff wf hruns hend hsize).mpr ⟨i, s, hs, rfl, rfl⟩
  case shifts =>
    intro hsize number state hstate
    obtain ⟨i, s, hs, rfl, rfl⟩ := (get?_states_iff wf hruns hend hsize).mp hstate
    rw [htransitions, filter_transitions_numbered hsize hs]
    exact s.entries_shifts_maps g i
  case gotos =>
    intro hsize number state hstate
    obtain ⟨i, s, hs, rfl, rfl⟩ := (get?_states_iff wf hruns hend hsize).mp hstate
    rw [htransitions, filter_transitions_numbered hsize hs]
    exact s.entries_gotos_maps g i

/-- **The maps of every rule list can be filled, and then they hold its automaton.** -/
theorem exists_holdsAutomaton {defs : List RuleDef} (h : Grammar.augment defs = .ok g) :
    (∃ a, Runs g a ∧ a.next? = none) ∧ ∀ a, Runs g a → a.next? = none → HoldsAutomaton g a := by
  have wf := Grammar.wellFormed_of_augment h
  obtain ⟨w, hruns, hend⟩ := NumberedWorklist.exists_runs_next?_eq_none wf
  exact ⟨⟨view g w, runs_view wf hruns, hend⟩, fun a hruns hend => hruns.holdsAutomaton wf hend⟩

end Assembly

end ShiftReduce
