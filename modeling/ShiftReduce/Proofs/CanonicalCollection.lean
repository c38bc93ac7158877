import ShiftReduce.Proofs.Collection

/-! # The automaton is the canonical collection

The item sets are found breadth first: those found when some are taken up are the start items and the
goto sets of these (`Automaton.discovered`), so that in the end the list of all item sets is told by
itself (`Automaton.isDiscovered_itemSets`). Read along the list of transitions this is the numbering: a
state that has not been entered before gets the next number. `Automaton.IsCanonical` says what the
canonical collection is without the way in which it is made, and `Automaton.isCanonical_ofGrammar` that
the automaton of a grammar is one. -/

namespace ShiftReduce

/-! ## Lists by place -/

/-- A list is what stands before a place, what is there, and what stands behind it. -/
theorem take_append_cons_drop {α : Type} {l : List α} {i : Nat} {a : α} (h : l[i]? = some a) :
    l.take i ++ a :: l.drop (i + 1) = l := by
  obtain ⟨hlt, hget⟩ := List.getElem?_eq_some_iff.mp h
  rw [← hget, ← List.drop_eq_getElem_cons hlt, List.take_append_drop]

/-- Of what is made from the elements of a list, each marked with its place, that with one place is made
from the element there. -/
theorem filter_flatMap_zipIdx {α β : Type} {f : α × Nat → List β} {place : β → Nat}
    (hplace : ∀ e, ∀ b ∈ f e, place b = e.2) {l : List α} {i : Nat} {a : α} (ha : l[i]? = some a) :
    ((l.zipIdx.flatMap f).filter fun b => place b = i) = f (a, i) := by
  -- elements with other places make nothing that is kept
  have hother (l : List α) (k : Nat) (hk : i < k ∨ k + l.length ≤ i) :
      (((l.zipIdx k).flatMap f).filter fun b => place b = i) = [] := by
    rw [List.filter_eq_nil_iff]
    intro b hb
    obtain ⟨e, he, hb⟩ := List.mem_flatMap.mp hb
    have hle := List.le_snd_of_mem_zipIdx he
    have hlt := List.snd_lt_add_of_mem_zipIdx he
    rw [decide_eq_true_eq, hplace e b hb]
    omega
  have hself : ((f (a, i)).filter fun b => place b = i) = f (a, i) := by
    rw [List.filter_eq_self]
    exact fun b hb => decide_eq_true (hplace _ b hb)
  have hlen : (l.take i).length = i := List.length_take_of_le (List.getElem?_eq_some_iff.mp ha).1.le
  rw [← take_append_cons_drop ha, List.zipIdx_append, List.flatMap_append, List.filter_append, List.zipIdx_cons,
    List.flatMap_cons, List.filter_append, hlen, Nat.zero_add, hself, hother _ 0 (by omega),
    hother _ (i + 1) (by omega), List.nil_append, List.append_nil]

/-! ## Transitions -/

namespace State

/-- The transitions that leave a state with a given number, in the order of its edges. -/
def outgoing (s : State) (i : Nat) : List Transition := s.edges.map fun (x, j) => ⟨i, j, x⟩

/-- The transitions out of a state are its edges. -/
theorem mem_outgoing {s : State} {i : Nat} {t : Transition} :
    t ∈ s.outgoing i ↔ t.source = i ∧ (t.symbol, t.target) ∈ s.edges := by
  unfold outgoing
  rw [List.mem_map]
  constructor
  · rintro ⟨⟨x, j⟩, hedge, rfl⟩
    exact ⟨rfl, hedge⟩
  · rintro ⟨rfl, hedge⟩
    exact ⟨_, hedge, rfl⟩

end State

namespace Automaton

variable {a : Automaton}

/-- The transitions stand state by state, in the order of the states' numbers. -/
theorem transitions_eq (a : Automaton) :
    a.transitions = a.states.toList.zipIdx.flatMap fun (s, i) => s.outgoing i := rfl

/-- A transition is an edge of the state it leaves. -/
theorem mem_transitions {t : Transition} :
    t ∈ a.transitions ↔ ∃ s, a.state? t.source = some s ∧ (t.symbol, t.target) ∈ s.edges := by
  rw [transitions_eq, List.mem_flatMap]
  constructor
  · rintro ⟨⟨s, i⟩, hs, ht⟩
    obtain ⟨rfl, hedge⟩ := State.mem_outgoing.mp ht
    rw [List.mem_zipIdx_iff_getElem?, Array.getElem?_toList] at hs
    exact ⟨s, hs, hedge⟩
  · rintro ⟨s, hs, hedge⟩
    refine ⟨(s, t.source), ?_, State.mem_outgoing.mpr ⟨rfl, hedge⟩⟩
    rw [List.mem_zipIdx_iff_getElem?, Array.getElem?_toList]
    exact hs

/-- Transitions are related when those of one state are and those of a state are to all of later ones. -/
theorem pairwise_transitions {R : Transition → Transition → Prop}
    (hstate : ∀ i s, a.state? i = some s → (s.outgoing i).Pairwise R)
    (hlater : ∀ t u, t.source < u.source → R t u) : a.transitions.Pairwise R := by
  rw [transitions_eq, List.pairwise_flatMap]
  constructor
  · rintro ⟨s, i⟩ hs
    rw [List.mem_zipIdx_iff_getElem?, Array.getElem?_toList] at hs
    exact hstate i s hs
  · have hnumbers : (a.states.toList.zipIdx.map (·.2)).Pairwise (· < ·) := by
      rw [List.zipIdx_map_snd]
      exact List.pairwise_lt_range'
    refine (List.pairwise_map.mp hnumbers).imp ?_
    rintro ⟨s, i⟩ ⟨s', i'⟩ hlt t ht u hu
    apply hlater
    rw [(State.mem_outgoing.mp ht).1, (State.mem_outgoing.mp hu).1]
    exact hlt

/-- The transitions from one state are those of its edges. -/
theorem filter_transitions {i : Nat} {s : State} (hs : a.state? i = some s) :
    (a.transitions.filter fun t => t.source = i) = s.outgoing i := by
  rw [state?, ← Array.getElem?_toList] at hs
  rw [transitions_eq]
  exact filter_flatMap_zipIdx (fun e t ht => (State.mem_outgoing.mp ht).1) hs

variable {g : Grammar}

/-! ## The order of discovery -/

/-- The item sets that are found when some have been taken up: the start items and the goto sets of
those that have, each at its first place. -/
def discovered (g : Grammar) (done : List ItemSet) : List ItemSet :=
  (startItems g :: done.flatMap (ItemSet.gotos g)).eraseDups

/-- Taking up one more item set discovers its goto sets behind the others. -/
theorem discovered_concat (done : List ItemSet) (items : ItemSet) :
    discovered g (done ++ [items]) = (discovered g done ++ items.gotos g).eraseDups := by
  simp only [discovered, List.flatMap_append, List.flatMap_singleton, eraseDups_eraseDups_append,
    List.cons_append]

/-- Taking up more item sets finds more behind those that are found. -/
theorem discovered_prefix (done more : List ItemSet) :
    discovered g done <+: discovered g (done ++ more) := by
  rw [discovered, discovered, List.flatMap_append, ← List.cons_append]
  exact eraseDups_prefix_append _ _

/-- Some item sets are all that are discovered, the first of them before any from place `i` on is taken
up: each is found before its turn comes. -/
structure IsDiscovered (g : Grammar) (i : Nat) (all : List ItemSet) : Prop where
  /-- they are what is discovered when all are taken up -/
  eq : all = discovered g all
  /-- a later one is found before it is taken up -/
  lt : ∀ k, i ≤ k → k < all.length → k < (discovered g (all.take k)).length

/-- At each moment those found are discovered from those taken up, and this stays so to the end. -/
theorem isDiscovered_collect (bound i : Nat) {found : List ItemSet}
    (hfound : found = discovered g (found.take i))
    (room : (collect g bound i found).length ≤ i + bound) :
    IsDiscovered g i (collect g bound i found) := by
  -- nothing is left to be taken up
  have stop {i : Nat} {found : List ItemSet} (hfound : found = discovered g (found.take i))
      (h : found.length ≤ i) : IsDiscovered g i found := by
    rw [List.take_of_length_le h] at hfound
    exact ⟨hfound, fun k hik hk => by omega⟩
  induction bound generalizing i found with
  | zero => exact stop hfound room
  | succ bound ih =>
    unfold collect at room ⊢
    split
    · next hnone => exact stop hfound (List.getElem?_eq_none_iff.mp hnone)
    · next items hitems =>
      simp only [hitems] at room
      have hi : i < found.length := (List.getElem?_eq_some_iff.mp hitems).1
      have hgrow : found <+: (found ++ items.gotos g).eraseDups := by
        refine prefix_eraseDups_append ?_ _
        rw [hfound]
        exact nodup_eraseDups _
      have htake (k : Nat) (hk : k ≤ found.length) {all : List ItemSet} (hall : found <+: all) :
          all.take k = found.take k := by
        obtain ⟨rest, rfl⟩ := hall
        rw [List.take_append_of_le_length hk]
      -- one more is taken up, and its goto sets are found
      have hnext : (found ++ items.gotos g).eraseDups =
          discovered g ((found ++ items.gotos g).eraseDups.take (i + 1)) := by
        rw [htake (i + 1) hi hgrow, List.take_add_one, hitems, Option.toList_some,
          discovered_concat, ← hfound]
      obtain ⟨heq, hlt⟩ := ih (i + 1) hnext (by omega)
      refine ⟨heq, fun k hik hk => ?_⟩
      rcases Nat.eq_or_lt_of_le hik with rfl | hik
      · have hall := hgrow.trans (prefix_collect (g := g) bound (i + 1) (nodup_eraseDups _))
        rw [htake i hi.le hall, ← hfound]
        exact hi
      · exact hlt k hik hk

/-- **The item sets are all that is discovered**, each before its turn comes. -/
theorem isDiscovered_itemSets (wf : g.WellFormed) : IsDiscovered g 0 (itemSets g) := by
  refine isDiscovered_collect _ 0 ?_ ?_
  · rfl
  · rw [Nat.zero_add]
    exact length_itemSets_le wf

/-- **Every item set but the first is a goto set of an earlier one.** -/
theorem exists_mem_gotos (wf : g.WellFormed) {k : Nat} {s : ItemSet} (hk : k ≠ 0)
    (hs : (itemSets g)[k]? = some s) : ∃ i < k, ∃ s₀, (itemSets g)[i]? = some s₀ ∧ s ∈ s₀.gotos g := by
  obtain ⟨heq, hlt⟩ := isDiscovered_itemSets wf
  have hlen : k < (itemSets g).length := (List.getElem?_eq_some_iff.mp hs).1
  have hprefix : discovered g ((itemSets g).take k) <+: itemSets g := by
    have h := discovered_prefix (g := g) ((itemSets g).take k) ((itemSets g).drop k)
    rwa [List.take_append_drop, ← heq] at h
  -- it is among those that are found before its turn comes
  have hmem : s ∈ discovered g ((itemSets g).take k) := by
    have hk := hlt k (Nat.zero_le k) hlen
    obtain ⟨rest, hrest⟩ := hprefix
    rw [← hrest, List.getElem?_append_left hk] at hs
    exact List.mem_of_getElem? hs
  rw [discovered, List.mem_eraseDups] at hmem
  rcases List.mem_cons.mp hmem with rfl | hmem
  · have hzero := (List.getElem?_inj (by omega) nodup_itemSets).mp
      (getElem?_itemSets_zero.trans hs.symm)
    exact absurd hzero.symm hk
  · obtain ⟨s₀, hs₀, hgoto⟩ := List.mem_flatMap.mp hmem
    obtain ⟨i, hi⟩ := List.mem_iff_getElem?.mp hs₀
    rw [List.getElem?_take] at hi
    split at hi
    · next hik => exact ⟨i, hik, s₀, hi, hgoto⟩
    · cases hi

/-! ## The numbers of the states -/

/-- The greatest number of a state in some transitions. Without any this is the start state. -/
def greatestState (l : List Transition) : Nat := l.foldr (fun t n => max (max t.source t.target) n) 0

/-- No transition has an end beyond the greatest state. -/
theorem le_greatestState {l : List Transition} {t : Transition} (h : t ∈ l) :
    t.source ≤ greatestState l ∧ t.target ≤ greatestState l := by
  induction l with
  | nil => exact absurd h List.not_mem_nil
  | cons u l ih =>
    rw [greatestState, List.foldr_cons, ← greatestState]
    rcases List.mem_cons.mp h with rfl | h
    · omega
    · have := ih h
      omega

/-- A bound on the ends of all transitions is one on the greatest state. -/
theorem greatestState_le {l : List Transition} {n : Nat}
    (h : ∀ t ∈ l, t.source ≤ n ∧ t.target ≤ n) : greatestState l ≤ n := by
  induction l with
  | nil => exact Nat.zero_le n
  | cons u l ih =>
    rw [greatestState, List.foldr_cons, ← greatestState]
    have hu := h u (List.mem_cons_self ..)
    have hl := ih fun t ht => h t (List.mem_cons_of_mem _ ht)
    omega

/-- The transitions lead to the goto sets of the item sets, one after the other. -/
theorem map_target_transitions (wf : g.WellFormed) :
    (ofGrammar g).transitions.map (·.target) =
      ((itemSets g).flatMap (ItemSet.gotos g)).map (itemSets g).idxOf := by
  have hstate (s : ItemSet) (i : Nat) :
      ((stateOf g (itemSets g) s).outgoing i).map (·.target) =
        (s.gotos g).map (itemSets g).idxOf := by
    simp only [State.outgoing, stateOf, ItemSet.gotos, List.map_map]
    rfl
  have hzip (l : List ItemSet) (targets : ItemSet → List Nat) :
      (l.zipIdx.flatMap fun e => targets e.1) = l.flatMap targets := by
    conv_rhs => rw [← List.zipIdx_map_fst 0 l, List.flatMap_map]
  rw [transitions_eq, toList_states wf, List.zipIdx_map, List.flatMap_map, List.map_flatMap,
    List.map_flatMap, ← hzip]
  exact List.flatMap_congr fun e _ => hstate e.1 e.2

/-- A symbol that an item set expects leads to the place of its goto set. -/
theorem goto_mem_transitions (wf : g.WellFormed) {i : Nat} {s : ItemSet}
    (hs : (itemSets g)[i]? = some s) {x : Symbol} (hx : x ∈ s.expected g) :
    ⟨i, (itemSets g).idxOf (s.goto g x), x⟩ ∈ (ofGrammar g).transitions := by
  refine mem_transitions.mpr ⟨stateOf g (itemSets g) s, ?_, ?_⟩
  · rw [state?_ofGrammar wf, hs, Option.map_some]
  · exact List.mem_map.mpr ⟨x, hx, rfl⟩

/-- The transitions stand in the order of the states they leave. -/
theorem pairwise_source (a : Automaton) :
    a.transitions.Pairwise fun t u => t.source ≤ u.source := by
  refine pairwise_transitions (fun i s _ => ?_) fun t u h => h.le
  -- those of one state have the same source
  refine List.pairwise_of_forall_mem_list fun t ht u hu => ?_
  rw [(State.mem_outgoing.mp ht).1, (State.mem_outgoing.mp hu).1]

/-- Where a transition stands in the list: those before it lead to the item sets `found`, one after the
other, and it leads to `next`. -/
structure StandsBehind (g : Grammar) (before : List Transition) (t : Transition)
    (found : List ItemSet) (next : ItemSet) : Prop where
  /-- the goto sets begin with those that are found -/
  gotos : found ++ [next] <+: (itemSets g).flatMap (ItemSet.gotos g)
  /-- the transitions before lead to what is found -/
  targets : before.map (·.target) = found.map (itemSets g).idxOf
  /-- the transition leads to the next one -/
  target : t.target = (itemSets g).idxOf next
  /-- it leaves a state -/
  source : t.source < (itemSets g).length
  /-- those before it leave no later state -/
  source_le : ∀ u ∈ before, u.source ≤ t.source
  /-- all that leave an earlier state are before it -/
  mem_before : ∀ u ∈ (ofGrammar g).transitions, u.source < t.source → u ∈ before

/-- Every transition stands behind those that lead to what was found before. -/
theorem exists_standsBehind (wf : g.WellFormed) {before after : List Transition} {t : Transition}
    (h : (ofGrammar g).transitions = before ++ t :: after) :
    ∃ found next, StandsBehind g before t found next := by
  have hmap := map_target_transitions wf
  have hsorted := pairwise_source (ofGrammar g)
  have hmem : t ∈ (ofGrammar g).transitions := by simp [h]
  rw [h, List.map_append, List.map_cons] at hmap
  obtain ⟨found, others, hsplit, hfound, hothers⟩ := List.map_eq_append_iff.mp hmap.symm
  obtain ⟨next, rest, rfl, hnext, -⟩ := List.map_eq_cons_iff.mp hothers
  rw [h, List.pairwise_append, List.pairwise_cons] at hsorted
  obtain ⟨-, ⟨hafter, -⟩, hbefore⟩ := hsorted
  refine ⟨found, next, ⟨rest, by simp [hsplit]⟩, hfound.symm, hnext.symm, ?_, ?_, ?_⟩
  · obtain ⟨s, hs, -⟩ := mem_transitions.mp hmem
    rw [state?_ofGrammar wf, Option.map_eq_some_iff] at hs
    obtain ⟨items, hitems, -⟩ := hs
    exact (List.getElem?_eq_some_iff.mp hitems).1
  · exact fun u hu => hbefore u hu t (List.mem_cons_self ..)
  · intro u hu hlt
    rw [h, List.mem_append, List.mem_cons] at hu
    rcases hu with hu | rfl | hu
    · exact hu
    · exact absurd hlt (Nat.lt_irrefl _)
    · have := hafter u hu
      omega

namespace StandsBehind

variable {before : List Transition} {t : Transition} {found : List ItemSet} {next : ItemSet}

/-- What is found are the first of the item sets. -/
theorem eraseDups_prefix (wf : g.WellFormed) (h : StandsBehind g before t found next) :
    (startItems g :: found).eraseDups <+: itemSets g := by
  obtain ⟨rest, hrest⟩ := h.gotos
  have heq := (isDiscovered_itemSets wf).eq
  rw [discovered, ← hrest, List.append_assoc, ← List.cons_append] at heq
  rw [heq]
  exact eraseDups_prefix_append _ _

/-- An item set that is found has its place among the first ones. -/
theorem idxOf_lt (wf : g.WellFormed) (h : StandsBehind g before t found next) {s : ItemSet}
    (hs : s ∈ startItems g :: found) :
    (itemSets g).idxOf s < (startItems g :: found).eraseDups.length := by
  have hmem : s ∈ (startItems g :: found).eraseDups := List.mem_eraseDups.mpr hs
  rw [idxOf_eq_of_isPrefix (h.eraseDups_prefix wf) hmem]
  exact List.idxOf_lt_length_of_mem hmem

/-- What is found is told by the targets. -/
theorem mem_found_iff (h : StandsBehind g before t found next) {s : ItemSet}
    (hs : s ∈ itemSets g) : s ∈ found ↔ (itemSets g).idxOf s ∈ before.map (·.target) := by
  rw [h.targets, List.mem_map]
  constructor
  · exact fun hfound => ⟨s, hfound, rfl⟩
  · rintro ⟨s', hs', heq⟩
    rwa [(List.idxOf_inj hs).mp heq.symm]

/-- The goto sets of the states before the one that is left are found. -/
theorem gotos_subset_found (wf : g.WellFormed) (h : StandsBehind g before t found next)
    {s' : ItemSet} (hs' : s' ∈ ((itemSets g).take t.source).flatMap (ItemSet.gotos g)) :
    s' ∈ found := by
  obtain ⟨s, hs, hgoto⟩ := List.mem_flatMap.mp hs'
  obtain ⟨i, hi⟩ := List.mem_iff_getElem?.mp hs
  rw [List.getElem?_take] at hi
  split at hi
  · next hlt =>
    obtain ⟨x, hx, rfl⟩ := ItemSet.mem_gotos.mp hgoto
    have hbefore := h.mem_before _ (goto_mem_transitions wf hi hx) hlt
    rw [h.mem_found_iff (goto_mem_itemSets wf (List.mem_of_getElem? hi) hx)]
    exact List.mem_map_of_mem (f := (·.target)) hbefore
  · cases hi

/-- The state that is left has been found. -/
theorem source_lt (wf : g.WellFormed) (h : StandsBehind g before t found next) :
    t.source < (startItems g :: found).eraseDups.length := by
  have hlt := (isDiscovered_itemSets wf).lt t.source (Nat.zero_le _) h.source
  have hsub : discovered g ((itemSets g).take t.source) ⊆ (startItems g :: found).eraseDups := by
    intro s hs
    rw [discovered, List.mem_eraseDups, List.mem_cons] at hs
    rw [List.mem_eraseDups, List.mem_cons]
    exact hs.imp_right (h.gotos_subset_found wf)
  exact Nat.lt_of_lt_of_le hlt (List.subperm_of_subset (nodup_eraseDups _) hsub).length_le

/-- The greatest number so far is that of the item set that was found last. -/
theorem greatestState_eq (wf : g.WellFormed) (h : StandsBehind g before t found next) :
    greatestState before + 1 = (startItems g :: found).eraseDups.length := by
  have hsource := h.source_lt wf
  apply Nat.le_antisymm
  · have hle : greatestState before ≤ (startItems g :: found).eraseDups.length - 1 := by
      refine greatestState_le fun u hu => ⟨?_, ?_⟩
      · have := h.source_le u hu
        omega
      · have htarget : u.target ∈ before.map (·.target) := List.mem_map_of_mem hu
        rw [h.targets, List.mem_map] at htarget
        obtain ⟨s, hs, heq⟩ := htarget
        have := h.idxOf_lt wf (List.mem_cons_of_mem _ hs)
        omega
    omega
  · obtain ⟨last, hlast⟩ : ∃ last, (startItems g :: found).eraseDups[
        (startItems g :: found).eraseDups.length - 1]? = some last :=
      ⟨_, List.getElem?_eq_getElem (by omega)⟩
    have hidx : (itemSets g).idxOf last = (startItems g :: found).eraseDups.length - 1 := by
      rw [idxOf_eq_of_isPrefix (h.eraseDups_prefix wf) (List.mem_of_getElem? hlast)]
      exact idxOf_of_getElem? (nodup_eraseDups _) hlast
    have hmem := List.mem_eraseDups.mp (List.mem_of_getElem? hlast)
    -- the last one is the start set, or a transition leads to it
    rcases List.mem_cons.mp hmem with rfl | hfound
    · rw [idxOf_of_getElem? nodup_itemSets getElem?_itemSets_zero] at hidx
      omega
    · have htarget : (itemSets g).idxOf last ∈ before.map (·.target) := by
        rw [h.targets]
        exact List.mem_map_of_mem hfound
      obtain ⟨u, hu, heq⟩ := List.mem_map.mp htarget
      have := (le_greatestState hu).2
      omega

/-- **A state that is entered for the first time has the next number.** -/
theorem target_eq (wf : g.WellFormed) (h : StandsBehind g before t found next)
    (hnew : t.target ∉ before.map (·.target)) : t.target = greatestState before + 1 := by
  obtain ⟨rest, hrest⟩ := h.gotos
  have hgoto : next ∈ (itemSets g).flatMap (ItemSet.gotos g) := by simp [← hrest]
  obtain ⟨s, hs, hnext⟩ := List.mem_flatMap.mp hgoto
  obtain ⟨x, hx, rfl⟩ := ItemSet.mem_gotos.mp hnext
  have hfirst : s.goto g x ∉ startItems g :: found := by
    rw [List.mem_cons, h.mem_found_iff (goto_mem_itemSets wf hs hx), ← h.target]
    rintro (hstart | hfound)
    -- no goto set has the start item
    · exact start_not_mem_goto wf s x (hstart ▸ start_mem_startItems)
    · exact hnew hfound
  have heq := (isDiscovered_itemSets wf).eq
  rw [discovered, ← hrest, List.append_assoc, ← List.cons_append] at heq
  rw [h.target, heq, h.greatestState_eq wf]
  exact idxOf_eraseDups_append hfirst rest

end StandsBehind

/-! ## The canonical collection -/

/-- A transition leads from one state to another. -/
def Connects (a : Automaton) (i j : Nat) : Prop := ∃ x, ⟨i, j, x⟩ ∈ a.transitions

/-- An automaton is the canonical collection of item sets of a grammar, numbered breadth first. -/
structure IsCanonical (g : Grammar) (a : Automaton) : Prop where
  /-- the states are numbered from `0` on without a gap -/
  exists_iff : ∀ i, (∃ s, a.state? i = some s) ↔ i < a.states.size
  /-- state `0` has the closure of the item from which everything starts -/
  start : ∃ s, a.state? 0 = some s ∧ s.items = (ItemSet.ofList [.start]).closure g
  /-- every state has an item -/
  nonempty : ∀ i s, a.state? i = some s → ∃ item, item ∈ s.items
  /-- different states have different items -/
  distinct : ∀ i j s s', a.state? i = some s → a.state? j = some s' → s.items = s'.items → i = j
  /-- every state is reached from state `0` -/
  reachable : ∀ i s, a.state? i = some s → Relation.ReflTransGen a.Connects 0 i
  /-- a state has a transition on just the symbols whose goto sets are not empty -/
  exists_transition_iff : ∀ i s x, a.state? i = some s →
    ((∃ j, ⟨i, j, x⟩ ∈ a.transitions) ↔ ∃ item, item ∈ s.items.goto g x)
  /-- a state has but one transition on a symbol -/
  unique : (a.transitions.map fun t => (t.source, t.symbol)).Nodup
  /-- a transition leads from a state to that of the goto set -/
  goto : ∀ t ∈ a.transitions, ∃ s s', a.state? t.source = some s ∧ a.state? t.target = some s' ∧
    s'.items = s.items.goto g t.symbol
  /-- the transitions are in the order of the states that they leave -/
  sorted : a.transitions.Pairwise fun t u => t.source ≤ u.source
  /-- those of one state are in the order in which its items first name the symbols -/
  symbols : ∀ i s, a.state? i = some s →
    (a.transitions.filter fun t => t.source = i).map (·.symbol) =
      (s.items.items.filterMap (·.next? g)).eraseDups
  /-- a state that is left has been seen before -/
  seen : ∀ before t after, a.transitions = before ++ t :: after → t.source ≤ greatestState before
  /-- a state that is entered for the first time has the number after the greatest seen before -/
  numbered : ∀ before t after, a.transitions = before ++ t :: after →
    t.target ∉ before.map (·.target) → t.target = greatestState before + 1
  /-- the transitions of a state on terminals are its shifts -/
  shifts : ∀ i s, a.state? i = some s → s.shifts =
    (a.transitions.filter fun t => t.source = i).filterMap fun t =>
      t.symbol.terminal?.map (·, t.target)
  /-- the transitions of a state on nonterminals are its gotos -/
  gotos : ∀ i s, a.state? i = some s → s.gotos =
    (a.transitions.filter fun t => t.source = i).filterMap fun t =>
      t.symbol.nonterminal?.map (·, t.target)

/-- Every state is reached from state `0`. -/
theorem reaches_state (wf : g.WellFormed) {k : Nat} {s : State}
    (hs : (ofGrammar g).state? k = some s) : Relation.ReflTransGen (ofGrammar g).Connects 0 k := by
  rw [state?_ofGrammar wf, Option.map_eq_some_iff] at hs
  obtain ⟨items, hitems, -⟩ := hs
  -- an edge leads there from an earlier state
  induction k using Nat.strong_induction_on generalizing items with
  | h k ih =>
    by_cases hzero : k = 0
    · rw [hzero]
    · obtain ⟨i, hik, items', hitems', hgoto⟩ := exists_mem_gotos wf hzero hitems
      obtain ⟨x, hx, rfl⟩ := ItemSet.mem_gotos.mp hgoto
      have hedge := goto_mem_transitions wf hitems' hx
      rw [idxOf_of_getElem? nodup_itemSets hitems] at hedge
      exact (ih i hik items' hitems').tail ⟨x, hedge⟩

/-- There is a transition on just the symbols whose goto sets have items. -/
theorem exists_transition_iff (wf : g.WellFormed) {i : Nat} {s : State}
    (hs : (ofGrammar g).state? i = some s) {x : Symbol} :
    (∃ j, ⟨i, j, x⟩ ∈ (ofGrammar g).transitions) ↔ ∃ item, item ∈ s.items.goto g x := by
  rw [ItemSet.exists_mem_goto_iff wf, ← edges_keys wf hs, List.mem_map]
  constructor
  · rintro ⟨j, hj⟩
    obtain ⟨s', hs', hedge⟩ := mem_transitions.mp hj
    rw [Option.some.inj (hs.symm.trans hs')]
    exact ⟨_, hedge, rfl⟩
  · rintro ⟨⟨y, j⟩, hedge, rfl⟩
    exact ⟨j, mem_transitions.mpr ⟨s, hs, hedge⟩⟩

/-- There is but one transition from a state on a symbol. -/
theorem nodup_transitions (wf : g.WellFormed) :
    ((ofGrammar g).transitions.map fun t => (t.source, t.symbol)).Nodup := by
  refine List.pairwise_map.mpr (pairwise_transitions (fun i s hs => ?_) fun t u hlt heq => ?_)
  · have hkeys := nodup_edges_keys wf hs
    rw [State.outgoing, List.pairwise_map]
    refine (List.pairwise_map.mp hkeys).imp fun hne heq => hne ?_
    exact (Prod.mk.inj heq).2
  · exact absurd (Prod.mk.inj heq).1 hlt.ne

/-- **The automaton of a grammar is the canonical collection.** That the shifts, the gotos and the list of
transitions are also the same when each of them is filled on its own, with numbers of `32` bits, is told by
`Assembly.HoldsAutomaton`. -/
theorem isCanonical_ofGrammar {defs : List RuleDef} {g : Grammar}
    (h : Grammar.augment defs = .ok g) : (ofGrammar g).IsCanonical g := by
  have wf := Grammar.wellFormed_of_augment h
  constructor
  case exists_iff =>
    intro i
    rw [state?, ← Option.isSome_iff_exists]
    simp
  case start => exact exists_state?_zero wf
  case nonempty => exact fun i s hs => exists_mem_items wf hs
  case distinct => exact fun i j s s' hs hs' heq => state?_inj wf hs hs' heq
  case reachable => exact fun i s hs => reaches_state wf hs
  case exists_transition_iff => exact fun i s x hs => exists_transition_iff wf hs
  case unique => exact nodup_transitions wf
  case goto =>
    intro t ht
    obtain ⟨s, hs, hedge⟩ := mem_transitions.mp ht
    obtain ⟨s', hs', hgoto⟩ := exists_of_mem_edges wf hs hedge
    exact ⟨s, s', hs, hs', hgoto⟩
  case sorted => exact pairwise_source _
  case symbols =>
    intro i s hs
    rw [filter_transitions hs, State.outgoing, List.map_map]
    exact edges_keys wf hs
  case seen =>
    intro before t after hsplit
    obtain ⟨found, next, hbehind⟩ := exists_standsBehind wf hsplit
    have hlt := hbehind.source_lt wf
    rw [← hbehind.greatestState_eq wf] at hlt
    exact Nat.le_of_lt_succ hlt
  case numbered =>
    intro before t after hsplit hnew
    obtain ⟨found, next, hbehind⟩ := exists_standsBehind wf hsplit
    exact hbehind.target_eq wf hnew
  case shifts =>
    intro i s hs
    rw [filter_transitions hs, State.outgoing, List.filterMap_map]
    rfl
  case gotos =>
    intro i s hs
    rw [filter_transitions hs, State.outgoing, List.filterMap_map]
    rfl

/-- The automaton of a rule list with left recursion, a rule that comes twice and a nonterminal without
rules. -/
theorem isCanonical_ofGrammar_leftRecursion : ∃ g,
    Grammar.augment [⟨"S", ["S", "a"]⟩, ⟨"S", []⟩, ⟨"S", []⟩, ⟨"S", ["B"]⟩] = .ok g ∧
    (ofGrammar g).IsCanonical g := by
  obtain ⟨g, hg⟩ : ∃ g, Grammar.augment
      [⟨"S", ["S", "a"]⟩, ⟨"S", []⟩, ⟨"S", []⟩, ⟨"S", ["B"]⟩] = .ok g :=
    Grammar.exists_augment (by decide) (by unfold RuleDef.IsValid; decide) (by decide) (by decide)
  exact ⟨g, hg, isCanonical_ofGrammar hg⟩

end Automaton

end ShiftReduce
