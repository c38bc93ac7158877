import ShiftReduce.Proofs.Collection

/-! # Paths of the automaton

A stack of states is a path from state `0`, its edges spelling what has been read
(`Automaton.Path`). An item in the current state says what stands at the end of such a path: going back
over the symbols before its marker leads to a state in which the item has nothing before the marker
(`Automaton.Path.back`). -/

namespace ShiftReduce

namespace Automaton

variable {g : Grammar}

/-- The states of a stack, the current one first, are those of a path from state `0`, whose edges are
on some symbols, the latest first. -/
inductive Path (a : Automaton) : List Nat → List Symbol → Prop
  | start : Path a [0] []
  | edge {i j : Nat} {below : List Nat} {symbols : List Symbol} {s : State} {x : Symbol}
      (h : Path a (i :: below) symbols) (hs : a.state? i = some s) (hedge : (x, j) ∈ s.edges) :
      Path a (j :: i :: below) (x :: symbols)

/-- The state with a number has an item. -/
def HasItem (a : Automaton) (i : Nat) (item : Item) : Prop :=
  ∃ s, a.state? i = some s ∧ item ∈ s.items

namespace HasItem

variable {i j : Nat} {item : Item}

/-- What a state has is among its items. -/
theorem mem_items {a : Automaton} (h : a.HasItem i item) {s : State} (hs : a.state? i = some s) :
    item ∈ s.items := by
  obtain ⟨s', hs', hitem⟩ := h
  rwa [Option.some.inj (hs.symm.trans hs')]

/-- The start state has the start item. -/
theorem start (wf : g.WellFormed) : (ofGrammar g).HasItem 0 .start := by
  obtain ⟨s, hs, hitems⟩ := exists_state?_zero wf
  exact ⟨s, hs, hitems ▸ start_mem_startItems⟩

/-- With an item that expects a nonterminal a state has the items that begin its rules. -/
theorem initial (wf : g.WellFormed) (h : (ofGrammar g).HasItem i item) {n : Nonterminal}
    (hnext : item.next? g = some (.nonterminal n)) {rule : Nat} (hrule : rule ∈ g.rulesOf n) :
    (ofGrammar g).HasItem i ⟨rule, 0⟩ := by
  obtain ⟨s, hs, hitem⟩ := h
  refine ⟨s, hs, ?_⟩
  -- the items of a state are a closure
  obtain ⟨base, hbase⟩ := exists_closure_of_state? wf hs
  rw [hbase] at hitem ⊢
  exact ItemSet.initial_mem_closure wf hitem hnext hrule

/-- With an item that expects a symbol a state has an edge to a state with the item advanced. -/
theorem advance (wf : g.WellFormed) (h : (ofGrammar g).HasItem i item) {x : Symbol}
    (hnext : item.next? g = some x) :
    ∃ s j, (ofGrammar g).state? i = some s ∧ (x, j) ∈ s.edges ∧
      (ofGrammar g).HasItem j item.advance := by
  obtain ⟨s, hs, hitem⟩ := h
  obtain ⟨j, s', hedge, hs', hgoto⟩ := exists_edge wf hs hitem hnext
  exact ⟨s, j, hs, hedge, s', hs', hgoto ▸ ItemSet.advance_mem_goto hitem hnext⟩

/-- An item with something before its marker comes over the edge that was taken. -/
theorem exists_of_edge (wf : g.WellFormed) {s : State} {x : Symbol}
    (hs : (ofGrammar g).state? i = some s) (hedge : (x, j) ∈ s.edges)
    (h : (ofGrammar g).HasItem j item) (hmarker : item.marker ≠ 0) :
    ∃ before, (ofGrammar g).HasItem i before ∧ before.next? g = some x ∧ before.advance = item := by
  obtain ⟨s', hs', hgoto⟩ := exists_of_mem_edges wf hs hedge
  have hitem := h.mem_items hs'
  rw [hgoto] at hitem
  obtain ⟨before, hbefore, hnext, hadvance⟩ := ItemSet.exists_of_mem_goto wf hitem hmarker
  exact ⟨before, ⟨s, hs, hbefore⟩, hnext, hadvance⟩

end HasItem

/-- **All edges to a state are on the same symbol,** the one before the markers of its items. -/
theorem symbol_unique (wf : g.WellFormed) {i i' j : Nat} {s s' : State} {x y : Symbol}
    (hs : (ofGrammar g).state? i = some s) (hedge : (x, j) ∈ s.edges)
    (hs' : (ofGrammar g).state? i' = some s') (hedge' : (y, j) ∈ s'.edges) : x = y := by
  have hx : x ∈ s.items.expected g := by
    rw [← edges_keys wf hs]
    exact List.mem_map_of_mem (f := (·.1)) hedge
  obtain ⟨item, hitem, hnext⟩ := ItemSet.mem_expected.mp hx
  obtain ⟨t, ht, hgoto⟩ := exists_of_mem_edges wf hs hedge
  have hadvance : (ofGrammar g).HasItem j item.advance :=
    ⟨t, ht, hgoto ▸ ItemSet.advance_mem_goto hitem hnext⟩
  -- the advanced item also comes over the other edge
  obtain ⟨before, -, hnext', heq⟩ :=
    HasItem.exists_of_edge wf hs' hedge' hadvance (Nat.succ_ne_zero _)
  obtain rfl : before = item := Item.advance_inj heq
  exact Option.some.inj (hnext.symm.trans hnext')

/-! ## Going back -/

namespace Path

variable {stack : List Nat} {symbols : List Symbol}

/-- A path goes on along an edge of the current state. -/
theorem push {a : Automaton} (h : a.Path stack symbols) {s : State} {x : Symbol} {j : Nat}
    (hs : a.state? (stack.headD 0) = some s) (hedge : (x, j) ∈ s.edges) :
    a.Path (j :: stack) (x :: symbols) := by
  cases h with
  | start => exact Path.start.edge hs hedge
  | edge h hs' hedge' => exact (h.edge hs' hedge').edge hs hedge

/-- A stack tells the symbols on its path. -/
theorem symbols_unique (wf : g.WellFormed) {symbols' : List Symbol}
    (h : (ofGrammar g).Path stack symbols) (h' : (ofGrammar g).Path stack symbols') :
    symbols = symbols' := by
  induction h generalizing symbols' with
  | start =>
    cases h'
    rfl
  | edge _ hs hedge ih =>
    cases h' with
    | edge h' hs' hedge' => rw [ih h', symbol_unique wf hs hedge hs' hedge']

/-- The start item is only in state `0`, where the path is empty. -/
theorem eq_start_of_hasItem (wf : g.WellFormed) (h : (ofGrammar g).Path stack symbols)
    (hitem : (ofGrammar g).HasItem (stack.headD 0) .start) : stack = [0] ∧ symbols = [] := by
  cases h with
  | start => exact ⟨rfl, rfl⟩
  | @edge i j below symbols s x _ hs hedge =>
    -- behind an edge there is a goto set
    obtain ⟨s', hs', hgoto⟩ := exists_of_mem_edges wf hs hedge
    have hstart := hitem.mem_items hs'
    rw [hgoto] at hstart
    exact absurd hstart (start_not_mem_goto wf _ _)

/-- **What stands before the marker of an item has been read.** Going back over it leads to a state that
has the item with nothing before the marker. -/
theorem back (wf : g.WellFormed) (h : (ofGrammar g).Path stack symbols) {item : Item}
    (hitem : (ofGrammar g).HasItem (stack.headD 0) item) {r : Rule}
    (hr : g.rule? item.rule = some r) :
    ∃ top below, stack.drop item.marker = top :: below ∧
      (ofGrammar g).Path (top :: below) (symbols.drop item.marker) ∧
      (ofGrammar g).HasItem top ⟨item.rule, 0⟩ ∧
      (symbols.take item.marker).reverse = r.right.toList.take item.marker := by
  -- induction on the path: the item goes back over the last edge with its marker one symbol less far
  induction h generalizing item with
  | start =>
    -- in state `0` nothing stands before a marker
    obtain ⟨s, hs, hstart⟩ := exists_state?_zero wf
    obtain ⟨rule, marker⟩ := item
    obtain rfl : marker = 0 := marker_of_mem_startItems (hstart ▸ hitem.mem_items hs)
    exact ⟨0, [], rfl, .start, hitem, rfl⟩
  | @edge i j below symbols s x hpath hs hedge ih =>
    obtain ⟨rule, marker⟩ := item
    cases marker with
    | zero => exact ⟨j, i :: below, rfl, hpath.edge hs hedge, hitem, by simp⟩
    | succ marker =>
      -- the item comes over the edge, whose symbol is the one before its marker
      obtain ⟨before, hbefore, hnext, hadvance⟩ :=
        HasItem.exists_of_edge wf hs hedge hitem (Nat.succ_ne_zero _)
      obtain rfl : before = ⟨rule, marker⟩ := Item.advance_inj hadvance
      obtain ⟨top, rest, hdrop, htop, hinitial, htake⟩ := ih hbefore hr
      refine ⟨top, rest, hdrop, htop, hinitial, ?_⟩
      have hget : r.right.toList[marker]? = some x := (Item.next?_eq (i := ⟨rule, marker⟩) hr).symm.trans hnext
      rw [List.take_succ_cons, List.reverse_cons, htake, List.take_add_one, hget]
      rfl

end Path

end Automaton

end ShiftReduce
