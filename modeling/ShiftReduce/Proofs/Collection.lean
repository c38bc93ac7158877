import ShiftReduce.Automaton
import ShiftReduce.Proofs.Closure
import Mathlib.Data.Finset.Card
import Mathlib.Data.Finset.Powerset

/-! # The collection of item sets

The states are told by the list of their item sets alone: what is found so far grows by the goto sets of
the next one (`Automaton.collect`), and the state of an item set has an edge to the place of each of its
goto sets (`Automaton.stateOf`). There are only as many item sets as there are sets of items, so the
bound is never met (`Automaton.toList_states`), and the list is closed under goto
(`Automaton.goto_mem_itemSets`). -/

namespace ShiftReduce

namespace ItemSet

/-- The goto sets of an item set, in the order of the symbols. -/
def gotos (g : Grammar) (s : ItemSet) : List ItemSet := (s.expected g).map (s.goto g)

/-- The goto sets of an item set lie behind the symbols it expects. -/
theorem mem_gotos {g : Grammar} {s s' : ItemSet} :
    s' ∈ s.gotos g ↔ ∃ x ∈ s.expected g, s.goto g x = s' :=
  List.mem_map

end ItemSet

namespace Automaton

/-! ## Item sets found so far -/

/-- The item sets that are found when those from a place on are taken up. -/
def collect (g : Grammar) : Nat → Nat → List ItemSet → List ItemSet
  | 0, _, found => found
  | bound + 1, i, found =>
    match found[i]? with
    | none => found
    | some items => collect g bound (i + 1) (found ++ items.gotos g).eraseDups

/-- The item sets of the automaton, in the order of their numbers. -/
def itemSets (g : Grammar) : List ItemSet := collect g (2 ^ itemCount g) 0 [startItems g]

/-- The state of an item set, with edges to the places of its goto sets. -/
def stateOf (g : Grammar) (all : List ItemSet) (items : ItemSet) : State :=
  ⟨items, (items.expected g).map fun x => (x, all.idxOf (items.goto g x))⟩

variable {g : Grammar}

/-- What is found first stays in front when more is found. -/
theorem prefix_eraseDups_append {found : List ItemSet} (h : found.Nodup) (more : List ItemSet) :
    found <+: (found ++ more).eraseDups := by
  have hprefix := eraseDups_prefix_append found more
  rwa [eraseDups_of_nodup h] at hprefix

/-- What is found stays in its place. -/
theorem prefix_collect (bound i : Nat) {found : List ItemSet} (h : found.Nodup) :
    found <+: collect g bound i found := by
  induction bound generalizing i found with
  | zero => exact List.prefix_refl _
  | succ bound ih =>
    unfold collect
    split
    · exact List.prefix_refl _
    · exact (prefix_eraseDups_append h _).trans (ih (i + 1) (nodup_eraseDups _))

/-- No item set is found twice. -/
theorem nodup_collect (bound i : Nat) {found : List ItemSet} (h : found.Nodup) :
    (collect g bound i found).Nodup := by
  induction bound generalizing i found with
  | zero => exact h
  | succ bound ih =>
    unfold collect
    split
    · exact h
    · exact ih (i + 1) (nodup_eraseDups _)

/-- What goto keeps is true of all item sets that are found. -/
theorem collect_induction {p : ItemSet → Prop} (hgoto : ∀ s, p s → ∀ s' ∈ s.gotos g, p s')
    (bound i : Nat) {found : List ItemSet} (h : ∀ s ∈ found, p s) :
    ∀ s ∈ collect g bound i found, p s := by
  induction bound generalizing i found with
  | zero => exact h
  | succ bound ih =>
    unfold collect
    split
    · exact h
    · next items hitems =>
      refine ih (i + 1) fun s hs => ?_
      rw [List.mem_eraseDups, List.mem_append] at hs
      rcases hs with hs | hs
      · exact h s hs
      · exact hgoto items (h items (List.mem_of_getElem? hitems)) s hs

/-- What holds at all places of a list holds of its members. -/
theorem forall_mem_of_getElem? {p : ItemSet → Prop} {l : List ItemSet} {i : Nat}
    (hlen : l.length ≤ i) (h : ∀ k < i, ∀ s, l[k]? = some s → p s) : ∀ s ∈ l, p s := by
  intro s hs
  obtain ⟨k, hk⟩ := List.mem_iff_getElem?.mp hs
  have hlt : k < l.length := (List.getElem?_eq_some_iff.mp hk).1
  exact h k (Nat.lt_of_lt_of_le hlt hlen) s hk

/-- With enough room the item sets are closed under goto: at each moment those that are taken up have
their goto sets among those found, and in the end all are taken up. -/
theorem collect_closed (bound i : Nat) {found : List ItemSet} (h : found.Nodup)
    (room : (collect g bound i found).length ≤ i + bound)
    (hdone : ∀ k < i, ∀ s, found[k]? = some s → ∀ s' ∈ s.gotos g, s' ∈ found) :
    ∀ s ∈ collect g bound i found, ∀ s' ∈ s.gotos g, s' ∈ collect g bound i found := by
  induction bound generalizing i found with
  | zero => exact forall_mem_of_getElem? room hdone
  | succ bound ih =>
    unfold collect at room ⊢
    split
    · next hnone => exact forall_mem_of_getElem? (List.getElem?_eq_none_iff.mp hnone) hdone
    · next items hitems =>
      have hi : i < found.length := (List.getElem?_eq_some_iff.mp hitems).1
      have hroom : (collect g bound (i + 1) (found ++ items.gotos g).eraseDups).length ≤
          i + (bound + 1) := by
        rwa [hitems] at room
      obtain ⟨rest, hrest⟩ := prefix_eraseDups_append h (items.gotos g)
      -- one more place is taken up: the goto sets of its item set are found now
      refine ih (i + 1) (nodup_eraseDups _) (by omega) ?_
      intro k hk s hs s' hs'
      rw [← hrest, List.getElem?_append_left (by omega)] at hs
      rw [List.mem_eraseDups, List.mem_append]
      rcases Nat.lt_succ_iff_lt_or_eq.mp hk with hk | rfl
      · exact Or.inl (hdone k hk s hs s' hs')
      · obtain rfl : items = s := Option.some.inj (hitems.symm.trans hs)
        exact Or.inr hs'

/-- With enough room a greater bound makes no difference. -/
theorem collect_add (bound more i : Nat) {found : List ItemSet}
    (room : (collect g bound i found).length ≤ i + bound) :
    collect g (bound + more) i found = collect g bound i found := by
  induction bound generalizing i found with
  | zero =>
    -- all are taken up
    cases more with
    | zero => rfl
    | succ more =>
      have hnone : found[i]? = none := List.getElem?_eq_none_iff.mpr room
      rw [Nat.zero_add]
      unfold collect
      rw [hnone]
  | succ bound ih =>
    rw [Nat.add_right_comm]
    unfold collect at room ⊢
    split
    · rfl
    · next items hitems =>
      rw [hitems] at room
      simp only at room
      exact ih (i + 1) (by omega)

/-! ## The room for item sets -/

/-- The items of the rules that are not superseded. -/
def allItems (g : Grammar) : List Item :=
  (List.range g.rules.size).flatMap fun i =>
    if g.isSuperseded i then []
    else (List.range (((g.rule? i).map (·.right.size + 1)).getD 0)).map (⟨i, ·⟩)

/-- There are as many items as the count says. -/
theorem length_allItems : (allItems g).length = itemCount g := by
  -- counting from any number adds the number of items
  have count (l : List Nat) (n : Nat) (b : Nat → Bool) (size : Nat → Nat) :
      l.foldl (fun count i => if b i then count else count + size i) n =
        n + (l.flatMap fun i =>
          if b i then [] else (List.range (size i)).map (Item.mk i)).length := by
    induction l generalizing n with
    | nil => rfl
    | cons i l ih =>
      rw [List.foldl_cons, ih, List.flatMap_cons, List.length_append]
      cases b i with
      | true => simp
      | false => simp [Nat.add_assoc]
  unfold allItems itemCount
  rw [count, Nat.zero_add]

/-- The items are those of the rules without a later copy, with the marker from the front of the
body to its end. -/
theorem mem_allItems {i : Item} :
    i ∈ allItems g ↔ g.isSuperseded i.rule = false ∧
      ∃ r, g.rule? i.rule = some r ∧ i.marker ≤ r.right.size := by
  unfold allItems
  rw [List.mem_flatMap]
  constructor
  · rintro ⟨rule, -, hi⟩
    cases hlater : g.isSuperseded rule with
    | true => simp [hlater] at hi
    | false =>
      cases hrule : g.rule? rule with
      | none => simp [hrule] at hi
      | some r =>
        simp only [hlater, hrule, Bool.false_eq_true, if_false, Option.map_some, Option.getD_some,
          List.mem_map, List.mem_range] at hi
        obtain ⟨marker, hmarker, rfl⟩ := hi
        exact ⟨hlater, r, hrule, Nat.le_of_lt_succ hmarker⟩
  · rintro ⟨hlater, r, hrule, hmarker⟩
    refine ⟨i.rule, List.mem_range.mpr (Array.getElem?_eq_some_iff.mp hrule).1, ?_⟩
    rw [hlater, hrule]
    exact List.mem_map.mpr ⟨i.marker, List.mem_range.mpr (Nat.lt_succ_of_le hmarker), rfl⟩

/-- There are no more item sets than sets of items. -/
theorem length_le_of_subset {items : List Item} {sets : List ItemSet} (h : sets.Nodup)
    (hsub : ∀ s ∈ sets, ∀ i ∈ s, i ∈ items) : sets.length ≤ 2 ^ items.length := by
  -- an item set is determined by its members, so distinct ones are distinct subsets
  have hinj : Function.Injective fun s : ItemSet => s.items.toFinset := by
    intro s s' hs
    refine ItemSet.ext fun i => ?_
    rw [ItemSet.mem_def, ItemSet.mem_def, ← List.mem_toFinset, ← List.mem_toFinset]
    exact iff_of_eq (congrArg (i ∈ ·) hs)
  have hpow : (sets.map fun s => s.items.toFinset).toFinset ⊆ items.toFinset.powerset := by
    intro t ht
    obtain ⟨s, hs, rfl⟩ := List.mem_map.mp (List.mem_toFinset.mp ht)
    rw [Finset.mem_powerset]
    intro i hi
    exact List.mem_toFinset.mpr (hsub s hs i (List.mem_toFinset.mp hi))
  calc sets.length = (sets.map fun s => s.items.toFinset).toFinset.card := by
        rw [List.toFinset_card_of_nodup (h.map hinj), List.length_map]
    _ ≤ items.toFinset.powerset.card := Finset.card_le_card hpow
    _ = 2 ^ items.toFinset.card := Finset.card_powerset _
    _ ≤ 2 ^ items.length := Nat.pow_le_pow_right (by decide) (List.toFinset_card_le items)

/-- The items of a closure are within those of the rules when the items closed are. -/
theorem mem_allItems_of_mem_closure {s : ItemSet} (h : ∀ i ∈ s, i ∈ allItems g) :
    ∀ i ∈ s.closure g, i ∈ allItems g := by
  intro i hi
  rcases ItemSet.mem_closure.mp hi with hi | ⟨hmarker, n, -, hrule⟩
  · exact h i hi
  · obtain ⟨r, hr, -, hlater⟩ := Grammar.mem_rulesOf.mp hrule
    exact mem_allItems.mpr ⟨hlater, r, hr, hmarker ▸ Nat.zero_le _⟩

/-- The items behind a symbol are items of the grammar. -/
theorem mem_allItems_of_mem_goto {s : ItemSet} (h : ∀ i ∈ s, i ∈ allItems g) (x : Symbol) :
    ∀ i ∈ s.goto g x, i ∈ allItems g := by
  rw [ItemSet.goto_eq]
  refine mem_allItems_of_mem_closure fun i hi => ?_
  obtain ⟨j, hj, hnext, rfl⟩ := ItemSet.mem_kernel.mp hi
  obtain ⟨hlater, r, hr, -⟩ := mem_allItems.mp (h j hj)
  rw [Item.next?_eq hr] at hnext
  have hlt : j.marker < r.right.toList.length := (List.getElem?_eq_some_iff.mp hnext).1
  exact mem_allItems.mpr ⟨hlater, r, hr, hlt⟩

/-- The start items are items of the grammar. -/
theorem mem_allItems_of_mem_startItems (wf : g.WellFormed) : ∀ i ∈ startItems g, i ∈ allItems g := by
  refine mem_allItems_of_mem_closure fun i hi => ?_
  obtain rfl : i = .start := List.mem_singleton.mp (ItemSet.mem_ofList.mp hi)
  exact mem_allItems.mpr ⟨wf.isSuperseded_zero, _, wf.rule?_zero, Nat.zero_le _⟩

/-- No two states have the same items. -/
theorem nodup_itemSets : (itemSets g).Nodup := nodup_collect _ _ (List.nodup_singleton _)

/-- Item sets hold items of rules that are not superseded. -/
theorem mem_allItems_of_mem_itemSets (wf : g.WellFormed) :
    ∀ s ∈ itemSets g, ∀ i ∈ s, i ∈ allItems g := by
  refine collect_induction (fun s hs s' hs' => ?_) _ _ fun s hs => ?_
  · obtain ⟨x, -, rfl⟩ := ItemSet.mem_gotos.mp hs'
    exact mem_allItems_of_mem_goto hs x
  · obtain rfl := List.mem_singleton.mp hs
    exact mem_allItems_of_mem_startItems wf

/-- **The bound suffices:** there are no more item sets than it says. -/
theorem length_itemSets_le (wf : g.WellFormed) : (itemSets g).length ≤ 2 ^ itemCount g := by
  rw [← length_allItems]
  exact length_le_of_subset nodup_itemSets (mem_allItems_of_mem_itemSets wf)

/-- **The item sets are closed under goto.** -/
theorem goto_mem_itemSets (wf : g.WellFormed) {s : ItemSet} (hs : s ∈ itemSets g) {x : Symbol}
    (hx : x ∈ s.expected g) : s.goto g x ∈ itemSets g := by
  refine collect_closed _ 0 (List.nodup_singleton _) ?_ ?_ s hs _ (ItemSet.mem_gotos.mpr ⟨x, hx, rfl⟩)
  · rw [Nat.zero_add]
    exact length_itemSets_le wf
  · intro k hk
    exact absurd hk (Nat.not_lt_zero k)

/-- The start items have number 0. -/
theorem getElem?_itemSets_zero : (itemSets g)[0]? = some (startItems g) := by
  obtain ⟨rest, hrest⟩ := prefix_collect (g := g) (2 ^ itemCount g) 0
    (List.nodup_singleton (startItems g))
  unfold itemSets
  rw [← hrest]
  rfl

/-! ## The states -/

/-- Making the edges of a state lists its goto sets behind those found before. -/
theorem toList_edges (items : ItemSet) (symbols : List Symbol) (found : Numbering ItemSet) :
    (edges g items symbols found).2.toList =
      (found.toList ++ symbols.map (items.goto g)).eraseDups := by
  induction symbols generalizing found with
  | nil =>
    rw [List.map_nil, List.append_nil, ← found.toList_eq_eraseDups]
    rfl
  | cons x symbols ih =>
    show (edges g items symbols (found.intern (items.goto g x)).2).2.toList = _
    rw [ih, Numbering.toList_intern_eraseDups found.toList_eq_eraseDups,
      eraseDups_eraseDups_append, List.append_assoc, List.map_cons, List.singleton_append]

/-- Each edge leads to the place of its goto set in the list, however that grows. -/
theorem edges_eq (items : ItemSet) (symbols : List Symbol) (found : Numbering ItemSet)
    {all : List ItemSet} (h : (edges g items symbols found).2.toList <+: all) :
    (edges g items symbols found).1 = symbols.map fun x => (x, all.idxOf (items.goto g x)) := by
  induction symbols generalizing found with
  | nil => rfl
  | cons x symbols ih =>
    have hrest := ih (found.intern (items.goto g x)).2 h
    have hmem : items.goto g x ∈ (found.intern (items.goto g x)).2.toList :=
      Numbering.mem_toList.mpr ⟨_, Numbering.value?_intern ..⟩
    -- the later goto sets are listed behind this one
    have hprefix : (found.intern (items.goto g x)).2.toList <+: all := by
      refine List.IsPrefix.trans ?_ h
      show _ <+: (edges g items symbols (found.intern (items.goto g x)).2).2.toList
      rw [toList_edges]
      exact prefix_eraseDups_append (Numbering.nodup_toList _) _
    show ((x, (found.intern (items.goto g x)).1) ::
      (edges g items symbols (found.intern (items.goto g x)).2).1) = _
    rw [hrest, List.map_cons, Numbering.intern_fst, idxOf_eq_of_isPrefix hprefix hmem]

/-- **The states, as far as the bound lets them be made, are those of the item sets.** -/
theorem toList_explore (bound : Nat) (states : Array State) (found : Numbering ItemSet) :
    (explore g bound states found).toList = states.toList ++
      (((collect g bound states.size found.toList).drop states.size).take bound).map
        (stateOf g (collect g bound states.size found.toList)) := by
  induction bound generalizing states found with
  | zero => simp [explore]
  | succ bound ih =>
    cases hitems : found.value? states.size with
    | none =>
      rw [← Numbering.getElem?_toList] at hitems
      unfold explore collect
      rw [← Numbering.getElem?_toList, hitems]
      simp [List.drop_of_length_le (List.getElem?_eq_none_iff.mp hitems)]
    | some items =>
      obtain ⟨found', hfound'⟩ : ∃ found', found' = (edges g items (items.expected g) found).2 :=
        ⟨_, rfl⟩
      obtain ⟨all, hall⟩ : ∃ all, all = collect g bound (states.size + 1) found'.toList := ⟨_, rfl⟩
      have hlist : found'.toList = (found.toList ++ items.gotos g).eraseDups := by
        rw [hfound']
        exact toList_edges ..
      have hget : found.toList[states.size]? = some items := by
        rw [Numbering.getElem?_toList, hitems]
      -- the list twin takes up the same item set
      have hcollect : collect g (bound + 1) states.size found.toList = all := by
        unfold collect
        rw [hget, hall, hlist]
      have hprefix : found'.toList <+: all := hall ▸ prefix_collect _ _ found'.nodup_toList
      -- the state that is made now is that of the item set at its place
      have hstate : (⟨items, (edges g items (items.expected g) found).1⟩ : State) =
          stateOf g all items := by
        unfold stateOf
        rw [edges_eq items (items.expected g) found (hfound' ▸ hprefix)]
      have hdrop : all.drop states.size = items :: all.drop (states.size + 1) := by
        have hfront : found.toList <+: all :=
          (hlist ▸ prefix_eraseDups_append found.nodup_toList _).trans hprefix
        obtain ⟨rest, rfl⟩ := hfront
        have hlt : states.size < found.toList.length := (List.getElem?_eq_some_iff.mp hget).1
        rw [List.drop_eq_getElem_cons (by simp only [List.length_append]; omega)]
        congr 1
        rw [List.getElem_append_left hlt]
        exact (List.getElem?_eq_some_iff.mp hget).2
      rw [hcollect, hdrop, List.take_succ_cons, List.map_cons, ← hstate]
      unfold explore
      rw [hitems]
      show (explore g bound (states.push _) (edges g items (items.expected g) found).2).toList = _
      rw [← hfound', ih, Array.size_push, ← hall, Array.toList_push, List.append_assoc]
      rfl

/-- **The states are those of the item sets.** -/
theorem toList_states (wf : g.WellFormed) :
    (ofGrammar g).states.toList = (itemSets g).map (stateOf g (itemSets g)) := by
  have hstart : (Numbering.empty.intern (startItems g)).2.toList = [startItems g] := by
    rw [Numbering.toList_intern, if_neg (by rw [Numbering.toList_empty]; exact List.not_mem_nil),
      Numbering.toList_empty, List.nil_append]
  -- the start items are the only item set at the beginning
  have hstates := toList_explore (g := g) (2 ^ itemCount g) #[]
    (Numbering.empty.intern (startItems g)).2
  rw [hstart] at hstates
  show (explore g (2 ^ itemCount g) #[] (Numbering.empty.intern (startItems g)).2).toList = _
  rw [hstates]
  show (((itemSets g).drop 0).take (2 ^ itemCount g)).map (stateOf g (itemSets g)) = _
  rw [List.drop_zero, List.take_of_length_le (length_itemSets_le wf)]

/-- **The state with a number is built from the item set at its place.** -/
theorem state?_ofGrammar (wf : g.WellFormed) (i : Nat) :
    (ofGrammar g).state? i = (itemSets g)[i]?.map (stateOf g (itemSets g)) := by
  unfold state?
  rw [← Array.getElem?_toList, toList_states wf, List.getElem?_map]

/-- State `0` has the start items. -/
theorem exists_state?_zero (wf : g.WellFormed) :
    ∃ s, (ofGrammar g).state? 0 = some s ∧ s.items = startItems g := by
  rw [state?_ofGrammar wf, getElem?_itemSets_zero]
  exact ⟨_, rfl, rfl⟩

/-- A state is built from its items, which are one of the item sets. -/
theorem mem_itemSets_of_state? (wf : g.WellFormed) {i : Nat} {s : State}
    (hs : (ofGrammar g).state? i = some s) :
    s.items ∈ itemSets g ∧ s = stateOf g (itemSets g) s.items := by
  rw [state?_ofGrammar wf, Option.map_eq_some_iff] at hs
  obtain ⟨items, hitems, rfl⟩ := hs
  exact ⟨List.mem_of_getElem? hitems, rfl⟩

/-- A state has one edge for each symbol that it expects. -/
theorem edges_keys (wf : g.WellFormed) {i : Nat} {s : State}
    (hs : (ofGrammar g).state? i = some s) : s.edges.map (·.1) = s.items.expected g := by
  rw [(mem_itemSets_of_state? wf hs).2]
  unfold stateOf
  rw [List.map_map]
  exact List.map_id _

/-- No two edges of a state are over the same symbol. -/
theorem nodup_edges_keys (wf : g.WellFormed) {i : Nat} {s : State}
    (hs : (ofGrammar g).state? i = some s) : (s.edges.map (·.1)).Nodup := by
  rw [edges_keys wf hs]
  exact nodup_eraseDups _

/-- **An edge on a symbol leads to the state of the goto set.** -/
theorem exists_of_mem_edges (wf : g.WellFormed) {i j : Nat} {s : State} {x : Symbol}
    (hs : (ofGrammar g).state? i = some s) (hedge : (x, j) ∈ s.edges) :
    ∃ s', (ofGrammar g).state? j = some s' ∧ s'.items = s.items.goto g x := by
  obtain ⟨hmem, hstate⟩ := mem_itemSets_of_state? wf hs
  rw [hstate] at hedge
  obtain ⟨y, hy, heq⟩ := List.mem_map.mp hedge
  obtain ⟨rfl, rfl⟩ := Prod.mk.inj heq
  rw [state?_ofGrammar wf, List.getElem?_idxOf (goto_mem_itemSets wf hmem hy)]
  exact ⟨_, rfl, rfl⟩

/-- **A state with an item that expects a symbol has an edge on it.** -/
theorem exists_edge (wf : g.WellFormed) {i : Nat} {s : State} {item : Item} {x : Symbol}
    (hs : (ofGrammar g).state? i = some s) (hitem : item ∈ s.items)
    (hnext : item.next? g = some x) :
    ∃ j s', (x, j) ∈ s.edges ∧ (ofGrammar g).state? j = some s' ∧
      s'.items = s.items.goto g x := by
  have hx : x ∈ s.edges.map (·.1) := by
    rw [edges_keys wf hs]
    exact ItemSet.mem_expected.mpr ⟨item, hitem, hnext⟩
  obtain ⟨⟨y, j⟩, hedge, rfl⟩ := List.mem_map.mp hx
  obtain ⟨s', hs', hgoto⟩ := exists_of_mem_edges wf hs hedge
  exact ⟨j, s', hedge, hs', hgoto⟩

/-- States with the same items are the same. -/
theorem state?_inj (wf : g.WellFormed) {i j : Nat} {s s' : State}
    (hs : (ofGrammar g).state? i = some s) (hs' : (ofGrammar g).state? j = some s')
    (heq : s.items = s'.items) : i = j := by
  rw [state?_ofGrammar wf, Option.map_eq_some_iff] at hs hs'
  obtain ⟨items, hitems, rfl⟩ := hs
  obtain ⟨items', hitems', rfl⟩ := hs'
  obtain rfl : items = items' := heq
  rw [← idxOf_of_getElem? nodup_itemSets hitems, idxOf_of_getElem? nodup_itemSets hitems']

/-- The items of a state are a closure. -/
theorem exists_closure_of_state? (wf : g.WellFormed) {i : Nat} {s : State}
    (hs : (ofGrammar g).state? i = some s) : ∃ base : ItemSet, s.items = base.closure g := by
  refine collect_induction (p := fun items => ∃ base : ItemSet, items = base.closure g)
    (fun items _ items' hgoto => ?_) _ _ (fun items hstart => ?_) s.items
    (mem_itemSets_of_state? wf hs).1
  · obtain ⟨x, -, rfl⟩ := ItemSet.mem_gotos.mp hgoto
    exact ⟨_, ItemSet.goto_eq items x⟩
  · exact ⟨_, List.mem_singleton.mp hstart⟩

/-! ## The start item -/

/-- The start item is one of the start items. -/
theorem start_mem_startItems : Item.start ∈ startItems g :=
  ItemSet.mem_closure_of_mem (ItemSet.mem_ofList.mpr (List.mem_singleton_self _))

/-- Every state has an item. -/
theorem exists_mem_items (wf : g.WellFormed) {i : Nat} {s : State}
    (hs : (ofGrammar g).state? i = some s) : ∃ item, item ∈ s.items := by
  refine collect_induction (p := fun items => ∃ item, item ∈ items)
    (fun items _ items' hgoto => ?_) _ _ (fun items hstart => ?_) s.items
    (mem_itemSets_of_state? wf hs).1
  · obtain ⟨x, hx, rfl⟩ := ItemSet.mem_gotos.mp hgoto
    exact (ItemSet.exists_mem_goto_iff wf).mpr hx
  · rw [List.mem_singleton.mp hstart]
    exact ⟨_, start_mem_startItems⟩

/-- In the start items nothing stands before a marker. -/
theorem marker_of_mem_startItems {i : Item} (h : i ∈ startItems g) : i.marker = 0 := by
  rcases ItemSet.mem_closure.mp h with h | ⟨hmarker, -⟩
  · rw [List.mem_singleton.mp (ItemSet.mem_ofList.mp h)]
    rfl
  · exact hmarker

/-- Every start item but the first is expected by one of them. -/
theorem expected_of_mem_startItems (wf : g.WellFormed) {i : Item} (h : i ∈ startItems g) :
    i = .start ∨ i.marker = 0 ∧ ∃ n, i.rule ∈ g.rulesOf n ∧
      ∃ j ∈ startItems g, j.next? g = some (.nonterminal n) := by
  rcases ItemSet.expected_of_mem_closure wf h with h | h
  · exact Or.inl (List.mem_singleton.mp (ItemSet.mem_ofList.mp h))
  · exact Or.inr h

/-- The start item is in no goto set, as no body holds the fresh start symbol. -/
theorem start_not_mem_goto (wf : g.WellFormed) (s : ItemSet) (x : Symbol) :
    Item.start ∉ s.goto g x := by
  intro h
  -- an item with nothing before its marker is expected, and nothing expects the fresh symbol
  obtain ⟨n, hrule, j, -, hnext⟩ := ItemSet.expected_of_mem_goto wf h rfl
  obtain ⟨r, hr, hleft, -⟩ := Grammar.mem_rulesOf.mp hrule
  obtain rfl : n = .freshStart := by
    rw [← hleft, ← Option.some.inj (wf.rule?_zero.symm.trans hr)]
  obtain ⟨r', hr', hget⟩ := Item.next?_eq_some.mp hnext
  exact (wf.hasSymbol_of_mem (Grammar.mem_rules_of_rule? hr') (List.mem_of_getElem? hget)).1 rfl

/-- Items of states belong to rules of the grammar, with the marker inside or at the end. -/
theorem exists_rule_of_mem_items (wf : g.WellFormed) {i : Nat} {s : State} {item : Item}
    (hs : (ofGrammar g).state? i = some s) (hitem : item ∈ s.items) :
    ∃ r, g.rule? item.rule = some r ∧ item.marker ≤ r.right.size := by
  have hmem := (mem_itemSets_of_state? wf hs).1
  exact (mem_allItems.mp (mem_allItems_of_mem_itemSets wf _ hmem item hitem)).2

end Automaton

end ShiftReduce
