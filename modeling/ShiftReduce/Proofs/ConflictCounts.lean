import Mathlib
import ShiftReduce.Proofs.Cells

/-! # How many conflicts there are

A state offers no action twice on a terminal (`Automaton.nodup_candidates`). So each action that does not
go into an empty cell makes a conflict, and a state has as many conflicts as it offers more actions than
it has cells (`length_writeActions_snd`). The order in which the actions are written does not matter. -/

namespace ShiftReduce

/-! ## Writing a row -/

section WriteActions

variable {cells : OrderedMap Terminal Action} {l : List (Terminal × Action)}

/-- The empty cells into which something is written. -/
def emptyCells (cells : OrderedMap Terminal Action) (l : List (Terminal × Action)) :
    Finset Terminal :=
  (l.map (·.1)).toFinset.filter fun t => cells.get? t = none

/-- The cells that are filled are those to which something is written and that had nothing. -/
theorem mem_emptyCells {t : Terminal} :
    t ∈ emptyCells cells l ↔ (∃ a, (t, a) ∈ l) ∧ cells.get? t = none := by
  unfold emptyCells
  simp only [Finset.mem_filter, List.mem_toFinset, List.mem_map, Prod.exists, exists_and_right,
    exists_eq_right]

/-- Once something is written into a cell, it is not empty any more. -/
theorem emptyCells_insert (t : Terminal) (a : Action) :
    emptyCells (cells.insert t a) l = (emptyCells cells ((t, a) :: l)).erase t := by
  ext u
  rw [Finset.mem_erase, mem_emptyCells, mem_emptyCells, OrderedMap.get?_insert]
  by_cases hu : u = t
  · simp [hu]
  · simp [hu]

/-- Each action that is written makes a conflict or fills an empty cell, when none of them comes twice or
is in its cell already. -/
theorem length_writeActions_snd_add (state : Nat) (hl : l.Nodup)
    (hnew : ∀ t a, cells.get? t = some a → (t, a) ∉ l) :
    (writeActions state cells l).2.length + (emptyCells cells l).card = l.length := by
  induction l generalizing cells with
  | nil => rfl
  | cons e l ih =>
    obtain ⟨t, current⟩ := e
    obtain ⟨hfirst, hrest⟩ := List.nodup_cons.mp hl
    have hnew' : ∀ u a, (cells.insert t current).get? u = some a → (u, a) ∉ l := by
      intro u a hcell hmem
      rw [OrderedMap.get?_insert] at hcell
      by_cases hu : u = t
      · rw [if_pos hu, Option.some.injEq] at hcell
        exact hfirst (hcell ▸ hu ▸ hmem)
      · rw [if_neg hu] at hcell
        exact hnew u a hcell (List.mem_cons_of_mem _ hmem)
    have hcount := ih hrest hnew'
    rw [emptyCells_insert] at hcount
    have hsplit : (writeActions state cells ((t, current) :: l)).2.length =
        (conflict? state cells t current).toList.length +
          (writeActions state (cells.insert t current) l).2.length := List.length_append
    rw [hsplit, List.length_cons, ← hcount]
    cases hcell : cells.get? t with
    | none =>
      have hmem : t ∈ emptyCells cells ((t, current) :: l) :=
        mem_emptyCells.mpr ⟨⟨current, List.mem_cons_self ..⟩, hcell⟩
      have hlost : conflict? state cells t current = none := by
        unfold conflict?
        rw [hcell]
        rfl
      rw [hlost, ← Finset.card_erase_add_one hmem, Option.toList_none, List.length_nil]
      omega
    | some previous =>
      have hnot : t ∉ emptyCells cells ((t, current) :: l) := by
        rw [mem_emptyCells, hcell]
        simp
      -- what is lost is another action
      have hne : previous ≠ current := fun heq =>
        hnew t previous hcell (heq ▸ List.mem_cons_self ..)
      have hlost : conflict? state cells t current = some ⟨state, t, previous, current⟩ := by
        unfold conflict?
        simp [hcell, hne]
      rw [hlost, Finset.erase_eq_of_notMem hnot, Option.toList_some, List.length_singleton]
      omega

/-- **A row has as many conflicts as there are more actions than cells.** -/
theorem length_writeActions_snd (state : Nat) (hl : l.Nodup) :
    (writeActions state {} l).2.length = l.length - (l.map (·.1)).toFinset.card := by
  have hall : emptyCells {} l = (l.map (·.1)).toFinset :=
    Finset.filter_true_of_mem fun t _ => rfl
  have hcount : (writeActions state {} l).2.length + (emptyCells {} l).card = l.length :=
    length_writeActions_snd_add state hl fun t a h => by cases h
  rw [hall] at hcount
  omega

end WriteActions

/-! ## What a state offers -/

/-- A complete rule offers no action twice. -/
theorem nodup_reductionsOf (g : Grammar) (follow : FollowSets) (rule : Nat) :
    (reductionsOf g follow rule).Nodup := by
  unfold reductionsOf
  split
  · exact List.nodup_singleton _
  · split
    · exact (SymbolSet.nodup_toList _).map fun t u h => (Prod.mk.inj h).1
    · exact List.nodup_nil

/-- Different rules offer different actions. -/
theorem disjoint_reductionsOf {g : Grammar} {follow : FollowSets} {rule rule' : Nat}
    (h : rule ≠ rule') : (reductionsOf g follow rule).Disjoint (reductionsOf g follow rule') := by
  rintro ⟨t, a⟩ ha ha'
  rw [mem_reductionsOf] at ha ha'
  rcases ha with ⟨hzero, -, rfl⟩ | ⟨-, rfl, -⟩
  · rcases ha' with ⟨hzero', -, -⟩ | ⟨-, haction, -⟩
    · exact h (hzero.trans hzero'.symm)
    · cases haction
  · rcases ha' with ⟨-, -, haction⟩ | ⟨-, haction, -⟩
    · cases haction
    · exact h (Action.reduce.inj haction)

namespace Automaton

variable {g : Grammar} {follow : FollowSets} {s : State} {i : Nat}

/-- A complete item of a state is told by its rule. -/
theorem eq_of_isComplete (wf : g.WellFormed) (hs : (ofGrammar g).state? i = some s) {a b : Item}
    (ha : a ∈ s.items) (hb : b ∈ s.items) (hcomplete : a.isComplete g = true)
    (hcomplete' : b.isComplete g = true) (hrule : a.rule = b.rule) : a = b := by
  obtain ⟨r, hr, -⟩ := Item.isComplete_iff.mp hcomplete
  -- the marker of a complete item is at the end of the body
  have hmarker {item : Item} (hitem : item ∈ s.items) (hsame : item.rule = a.rule)
      (hcomplete : item.isComplete g = true) : item.marker = r.right.size := by
    obtain ⟨r₁, hr₁, hge⟩ := Item.isComplete_iff.mp hcomplete
    obtain ⟨r₂, hr₂, hle⟩ := exists_rule_of_mem_items wf hs hitem
    rw [hsame, hr] at hr₁ hr₂
    obtain rfl := Option.some.inj hr₁
    obtain rfl := Option.some.inj hr₂
    exact Nat.le_antisymm hle hge
  exact Item.ext_iff.mpr
    ⟨hrule, (hmarker ha rfl hcomplete).trans (hmarker hb hrule.symm hcomplete').symm⟩

/-- The complete items of a state are in the order of their rules. -/
theorem pairwise_reduces (wf : g.WellFormed) (hs : (ofGrammar g).state? i = some s) :
    (s.reduces g).Pairwise (· < ·) := by
  refine List.pairwise_map.mpr ((s.items.sorted.filter _).imp_of_mem fun {a b} ha hb hlt => ?_)
  obtain ⟨ha, hcomplete⟩ := List.mem_filter.mp ha
  obtain ⟨hb, hcomplete'⟩ := List.mem_filter.mp hb
  rcases Item.lt_def.mp hlt with hrule | ⟨hrule, -⟩
  · exact hrule
  · obtain rfl := eq_of_isComplete wf hs ha hb hcomplete hcomplete' hrule
    exact absurd hlt (Item.lt_irrefl a)

/-- A state completes no rule twice. -/
theorem nodup_reduces (wf : g.WellFormed) (hs : (ofGrammar g).state? i = some s) :
    (s.reduces g).Nodup :=
  (pairwise_reduces wf hs).imp Nat.ne_of_lt

/-- **A state offers no action twice on a terminal.** -/
theorem nodup_candidates (wf : g.WellFormed) (hs : (ofGrammar g).state? i = some s) :
    (s.candidates g follow).Nodup := by
  unfold State.candidates
  refine List.Nodup.append ?_ ?_ ?_
  · refine (nodup_shifts wf hs).map fun e e' h => ?_
    obtain ⟨ht, hj⟩ := Prod.mk.inj h
    exact Prod.ext ht (Action.shift.inj hj)
  · refine List.nodup_flatMap.mpr ⟨fun rule _ => nodup_reductionsOf g follow rule, ?_⟩
    exact (nodup_reduces wf hs).imp fun h => disjoint_reductionsOf h
  · rintro ⟨t, a⟩ hshift hreduce
    obtain ⟨e, -, he⟩ := List.mem_map.mp hshift
    obtain ⟨rule, -, ha⟩ := List.mem_flatMap.mp hreduce
    rcases mem_reductionsOf.mp ha with ⟨-, -, rfl⟩ | ⟨-, rfl, -⟩
    · cases (Prod.mk.inj he).2
    · cases (Prod.mk.inj he).2

end Automaton

/-! ## All conflicts -/

/-- How many more actions a state offers than it has cells for them. -/
def State.excess (g : Grammar) (follow : FollowSets) (s : State) : Nat :=
  (s.candidates g follow).length - ((s.candidates g follow).map (·.1)).toFinset.card

/-- **There are as many conflicts as actions that find their cell filled.** -/
theorem ParseTable.length_conflicts {g : Grammar} (wf : g.WellFormed) (follow : FollowSets) :
    (ofAutomaton g follow (.ofGrammar g)).conflicts.length =
      ((Automaton.ofGrammar g).states.toList.map (State.excess g follow)).sum := by
  have hrow : ∀ e ∈ (Automaton.ofGrammar g).states.toList.zipIdx,
      (rowOf g follow e.2 e.1).2.length = e.1.excess g follow := by
    rintro ⟨s, i⟩ he
    have hs : (Automaton.ofGrammar g).state? i = some s := by
      rw [Automaton.state?, ← Array.getElem?_toList]
      exact List.mem_zipIdx_iff_getElem?.mp he
    exact length_writeActions_snd i (Automaton.nodup_candidates wf hs)
  have hlength : (ofAutomaton g follow (.ofGrammar g)).conflicts.length =
      ((Automaton.ofGrammar g).states.toList.zipIdx.map fun e =>
        (rowOf g follow e.2 e.1).2.length).sum := by
    unfold ofAutomaton
    rw [List.length_flatMap, List.map_map]
    rfl
  rw [hlength, List.map_congr_left hrow]
  nth_rewrite 2 [← List.zipIdx_map_fst 0 (Automaton.ofGrammar g).states.toList]
  rw [List.map_map]
  rfl

end ShiftReduce
