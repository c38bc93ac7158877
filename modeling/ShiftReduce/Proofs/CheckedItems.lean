import ShiftReduce.Proofs.Collection

/-! # Item sets with every look-up checked

Items hold the number of a rule, and whoever asks what stands behind a marker looks that rule up. Here
the closure and the goto sets are computed once more, item by item: a look-up of a number that no rule
has is a failure, and so is moving a marker on from the last position that there is
(`Checked.expand`, `Checked.goto`). On items of rules of the grammar nothing fails, and what is found is
the closure (`Checked.closure_eq`) and the goto set (`Checked.goto_eq`). -/

namespace ShiftReduce

/-- What stops a checked computation. -/
inductive Failure where
  /-- the grammar has no rule with the number that is looked up -/
  | missingRule (rule : Nat)
  /-- there is no position behind the marker of an item -/
  | lastMarker (item : Item)
  /-- the bound is reached, but there is more to do -/
  | unfinished
  deriving DecidableEq

/-- The bodies of all rules leave room for the markers of their items. -/
def Grammar.HasRoom (g : Grammar) : Prop := ∀ k r, g.rule? k = some r → r.right.size ≤ capacity

/-- **The bodies of an accepted rule list leave room for markers.** -/
theorem Grammar.hasRoom_of_augment {defs : List RuleDef} {g : Grammar}
    (h : Grammar.augment defs = .ok g) : g.HasRoom := by
  intro k r hr
  have haug := isAugmentation_of_augment h
  have hmem := mem_rules_of_rule? hr
  rw [haug.rules, augmentedRules] at hmem
  rcases List.mem_cons.mp hmem with rfl | hmem
  · decide
  · obtain ⟨d, hd, rfl⟩ := List.mem_map.mp hmem
    have hlength : (ruleOf (terminalNames defs) (nonterminalNames defs) d).right.size =
        d.body.length := by
      simp [ruleOf]
    rw [hlength]
    exact (haug.valid d hd).2.2

/-- **Where there is room for markers, one in front of a symbol can be moved on.** -/
theorem Item.marker_lt_capacity {g : Grammar} (room : g.HasRoom) {i : Item} {x : Symbol}
    (hnext : i.next? g = some x) : i.marker < capacity := by
  obtain ⟨r, hr, hget⟩ := Item.next?_eq_some.mp hnext
  -- a symbol stands behind the marker, which therefore is not the last
  have hlt := (List.getElem?_eq_some_iff.mp hget).1
  rw [Array.length_toList] at hlt
  exact Nat.lt_of_lt_of_le hlt (room _ r hr)

/-- The result of a computation that may be stopped. -/
abbrev Checked (α : Type) : Type := Except Failure α

namespace Checked

/-- A computation goes on with the result of one that does not fail. -/
@[simp] theorem ok_bind {α β : Type} (a : α) (f : α → Checked β) :
    ((.ok a : Checked α) >>= f) = f a := rfl

/-- What succeeds for each element of a list succeeds for the list. -/
theorem mapM_eq_filterMap {α β : Type} {f : α → Checked β} {h : α → Option β} {l : List α}
    (hl : ∀ a ∈ l, ∃ b, f a = .ok b ∧ h a = some b) : l.mapM f = .ok (l.filterMap h) := by
  induction l with
  | nil => rfl
  | cons a l ih =>
    obtain ⟨b, hf, hb⟩ := hl a (List.mem_cons_self ..)
    have hrest := ih fun a' ha' => hl a' (List.mem_cons_of_mem _ ha')
    rw [List.mapM_cons, hf, ok_bind, hrest, ok_bind, List.filterMap_cons_some hb]
    rfl

/-- Where no element fails, nothing fails. -/
theorem mapM_eq_map {α β : Type} {f : α → Checked β} {h : α → β} {l : List α}
    (hl : ∀ a ∈ l, f a = .ok (h a)) : l.mapM f = .ok (l.map h) := by
  rw [← List.filterMap_eq_map]
  exact mapM_eq_filterMap fun a ha => ⟨h a, hl a ha, rfl⟩

/-! ## Looking up rules -/

/-- The rule with a number; there has to be one. -/
def rule (g : Grammar) (k : Nat) : Checked Rule :=
  match g.rule? k with
  | some r => .ok r
  | none => .error (.missingRule k)

/-- The symbol behind the marker of an item, if it is not at the end. -/
def next (g : Grammar) (i : Item) : Checked (Option Symbol) := do
  let r ← rule g i.rule
  return r.right[i.marker]?

/-- The item with the marker one symbol further on; there has to be room for such a marker. -/
def advance (i : Item) : Checked Item :=
  match i.advance? with
  | some j => .ok j
  | none => .error (.lastMarker i)

variable {g : Grammar}

/-- Looking up a rule of the grammar succeeds. -/
theorem rule_eq {k : Nat} {r : Rule} (h : g.rule? k = some r) : rule g k = .ok r := by
  unfold rule
  rw [h]

/-- Looking behind the marker of an item of such a rule succeeds. -/
theorem next_eq {i : Item} {r : Rule} (h : g.rule? i.rule = some r) : next g i = .ok (i.next? g) := by
  unfold next Item.next?
  rw [rule_eq h, ok_bind, h]
  rfl

/-- Advancing a marker below the limit succeeds. -/
theorem advance_eq {i : Item} (h : i.marker < capacity) : advance i = .ok i.advance := by
  unfold advance Item.advance?
  rw [if_pos h]

/-! ## Closures -/

/-- The initial items of an expected nonterminal that are not found yet. -/
def newItems (g : Grammar) (found : List Item) : Option Symbol → List Item
  | some (.nonterminal n) => ((g.rulesOf n).map (⟨·, 0⟩)).filter (· ∉ found)
  | _ => []

/-- The items of a worklist are expanded one after the other, and what is new goes to its front. -/
def expand (g : Grammar) : Nat → List Item → List Item → Checked (List Item)
  | 0, _, _ => .error .unfinished
  | _ + 1, [], found => .ok found
  | bound + 1, i :: pending, found => do
    let x ← next g i
    let fresh := newItems g found x
    expand g bound (fresh.reverse ++ pending) (found ++ fresh)

/-- The closure of the items in a list. An item comes into the worklist once, and only the initial items
of the rules are added. -/
def closure (g : Grammar) (l : List Item) : Checked ItemSet := do
  let found ← expand g (l.eraseDups.length + g.rules.size + 1) l.eraseDups.reverse l.eraseDups
  return .ofList found

/-- The items that expect a symbol, each with the marker behind it. -/
def advanceOver (g : Grammar) (x : Symbol) : List Item → Checked (List Item)
  | [] => .ok []
  | i :: rest => do
    if (← next g i) = some x then
      let j ← advance i
      return j :: (← advanceOver g x rest)
    else advanceOver g x rest

/-- The goto set of an item set. -/
def goto (g : Grammar) (s : ItemSet) (x : Symbol) : Checked ItemSet := do
  closure g (← advanceOver g x s.items)

/-- How many of the rules have no initial item among those found. -/
def missing (g : Grammar) (found : List Item) : Nat :=
  ((List.range g.rules.size).filter fun k => (⟨k, 0⟩ : Item) ∉ found).length

/-- No more initial items are missing than there are rules. -/
theorem missing_le_size (found : List Item) : missing g found ≤ g.rules.size := by
  refine Nat.le_trans (List.length_filter_le _ _) ?_
  rw [List.length_range]

/-- The initial items of rules make as many rules less missing as there are items. -/
theorem missing_append {found fresh : List Item} (hnodup : fresh.Nodup)
    (hfresh : ∀ i ∈ fresh, i.marker = 0 ∧ i.rule < g.rules.size ∧ i ∉ found) :
    missing g (found ++ fresh) + fresh.length ≤ missing g found := by
  -- the rules that are no longer missing are those of the new items
  have hlength : fresh.length = (fresh.map (·.rule)).length := (List.length_map _).symm
  unfold missing
  rw [hlength, ← List.length_append]
  apply (List.Nodup.subperm ?_ ?_).length_le
  · refine List.Nodup.append (List.nodup_range.filter _) ?_ ?_
    · refine List.Nodup.map_on (fun i hi j hj h => Item.ext_iff.mpr ⟨h, ?_⟩) hnodup
      rw [(hfresh i hi).1, (hfresh j hj).1]
    · intro k hk hrule
      obtain ⟨⟨_, marker⟩, hi, rfl⟩ := List.mem_map.mp hrule
      obtain rfl : marker = 0 := (hfresh _ hi).1
      simp [hi] at hk
  · intro k hk
    rcases List.mem_append.mp hk with hk | hk
    · simp only [List.mem_filter, List.mem_append, decide_eq_true_eq, not_or] at hk ⊢
      exact ⟨hk.1, hk.2.1⟩
    · obtain ⟨⟨_, marker⟩, hi, rfl⟩ := List.mem_map.mp hk
      obtain ⟨rfl, hlt, hnew⟩ := hfresh _ hi
      simp only [List.mem_filter, List.mem_range, decide_eq_true_eq]
      exact ⟨hlt, hnew⟩

/-- The new items are those of the expected nonterminal's rules that are not there yet. -/
theorem mem_newItems {found : List Item} {x : Option Symbol} {i : Item} :
    i ∈ newItems g found x ↔
      i ∉ found ∧ i.marker = 0 ∧ ∃ n, x = some (.nonterminal n) ∧ i.rule ∈ g.rulesOf n := by
  obtain ⟨k, marker⟩ := i
  match x with
  | none => simp [newItems]
  | some (.terminal t) => simp [newItems]
  | some (.nonterminal n) =>
    simp only [newItems, List.mem_filter, List.mem_map, Item.mk.injEq, decide_eq_true_eq,
      Option.some.injEq, Symbol.nonterminal.injEq, exists_eq_left']
    constructor
    · rintro ⟨⟨_, hrule, rfl, rfl⟩, hnew⟩
      exact ⟨hnew, rfl, hrule⟩
    · rintro ⟨hnew, rfl, hrule⟩
      exact ⟨⟨k, hrule, rfl, rfl⟩, hnew⟩

/-- No new item comes twice. -/
theorem nodup_newItems (found : List Item) (x : Option Symbol) : (newItems g found x).Nodup := by
  match x with
  | none => exact List.nodup_nil
  | some (.terminal t) => exact List.nodup_nil
  | some (.nonterminal n) =>
    refine List.Nodup.filter _ (List.Nodup.map (fun k l h => ?_) (List.nodup_range.filter _))
    exact (Item.ext_iff.mp h).1

/-- Items that an expansion adds make as many rules less missing. -/
theorem missing_newItems (found : List Item) (x : Option Symbol) :
    missing g (found ++ newItems g found x) + (newItems g found x).length ≤ missing g found := by
  refine missing_append (nodup_newItems found x) fun i hi => ?_
  obtain ⟨hnew, hmarker, n, -, hrule⟩ := mem_newItems.mp hi
  exact ⟨hmarker, List.mem_range.mp (List.mem_of_mem_filter hrule), hnew⟩

/-- **Expanding a worklist finds the closure.** Of what is found all but the worklist is expanded, and
all of it is in the closure. -/
theorem expand_eq (wf : g.WellFormed) {s : ItemSet} (hrules : ∀ i ∈ s, ∃ r, g.rule? i.rule = some r)
    {bound : Nat} {pending found : List Item} (room : pending.length + missing g found < bound)
    (hpending : ∀ i ∈ pending, i ∈ found) (hs : ∀ i ∈ s, i ∈ found)
    (hfound : ∀ i ∈ found, i ∈ s.closure g)
    (hdone : ∀ i ∈ found, i ∉ pending → ∀ n, i.next? g = some (.nonterminal n) →
      ∀ rule ∈ g.rulesOf n, ⟨rule, 0⟩ ∈ found) :
    ∃ all, expand g bound pending found = .ok all ∧ ∀ i, i ∈ all ↔ i ∈ s.closure g := by
  induction bound generalizing pending found with
  | zero => omega
  | succ bound ih =>
    cases pending with
    | nil =>
      refine ⟨found, rfl, fun i => ⟨hfound i, ?_⟩⟩
      -- all is expanded, so what is found is closed
      refine ItemSet.closure_induction wf hs (fun j n rule hj hnext hrule => ?_) i
      exact hdone j hj List.not_mem_nil n hnext rule hrule
    | cons i pending =>
      have hi : i ∈ s.closure g := hfound i (hpending i (List.mem_cons_self ..))
      obtain ⟨r, hr⟩ : ∃ r, g.rule? i.rule = some r := by
        rcases ItemSet.mem_closure.mp hi with hi | ⟨-, n, -, hrule⟩
        · exact hrules i hi
        · obtain ⟨r, hr, -⟩ := Grammar.mem_rulesOf.mp hrule
          exact ⟨r, hr⟩
      have hroom := missing_newItems (g := g) found (i.next? g)
      unfold expand
      rw [next_eq hr, ok_bind]
      refine ih ?_ ?_ ?_ ?_ ?_
      · simp only [List.length_append, List.length_reverse, List.length_cons] at room ⊢
        omega
      · intro j hj
        rw [List.mem_append, List.mem_reverse] at hj
        rw [List.mem_append]
        exact hj.symm.imp_left fun hj => hpending j (List.mem_cons_of_mem _ hj)
      · exact fun j hj => List.mem_append_left _ (hs j hj)
      · intro j hj
        rcases List.mem_append.mp hj with hj | hj
        · exact hfound j hj
        · obtain ⟨-, hmarker, n, hnext, hrule⟩ := mem_newItems.mp hj
          obtain ⟨k, marker⟩ := j
          obtain rfl : marker = 0 := hmarker
          exact ItemSet.initial_mem_closure wf hi hnext hrule
      · intro j hj hnot n hnext k hk
        rw [List.mem_append, List.mem_reverse, not_or] at hnot
        have hold : j ∈ found := (List.mem_append.mp hj).resolve_right hnot.1
        by_cases hji : j = i
        · -- the item that has just been expanded
          subst hji
          by_cases hmem : (⟨k, 0⟩ : Item) ∈ found
          · exact List.mem_append_left _ hmem
          · exact List.mem_append_right _ (mem_newItems.mpr ⟨hmem, rfl, n, hnext, hk⟩)
        · have hbefore : j ∉ i :: pending := fun h => (List.mem_cons.mp h).elim hji hnot.2
          exact List.mem_append_left _ (hdone j hold hbefore n hnext k hk)

/-- **The closure of items of rules does not fail.** -/
theorem closure_eq (wf : g.WellFormed) {l : List Item}
    (hrules : ∀ i ∈ l, ∃ r, g.rule? i.rule = some r) :
    closure g l = .ok ((ItemSet.ofList l).closure g) := by
  have hexpand : ∃ all,
      expand g (l.eraseDups.length + g.rules.size + 1) l.eraseDups.reverse l.eraseDups = .ok all ∧
        ∀ i, i ∈ all ↔ i ∈ (ItemSet.ofList l).closure g := by
    apply expand_eq wf
    · exact fun i hi => hrules i (ItemSet.mem_ofList.mp hi)
    · have hmissing := missing_le_size (g := g) l.eraseDups
      rw [List.length_reverse]
      omega
    · exact fun i hi => List.mem_reverse.mp hi
    · exact fun i hi => List.mem_eraseDups.mpr (ItemSet.mem_ofList.mp hi)
    · intro i hi
      exact ItemSet.mem_closure_of_mem (ItemSet.mem_ofList.mpr (List.mem_eraseDups.mp hi))
    -- nothing is expanded yet
    · exact fun i hi hnot => absurd (List.mem_reverse.mpr hi) hnot
  obtain ⟨all, hall, hmem⟩ := hexpand
  have hset : ItemSet.ofList all = (ItemSet.ofList l).closure g :=
    ItemSet.ext fun i => by rw [ItemSet.mem_ofList, hmem]
  unfold closure
  rw [hall, ok_bind, hset]
  rfl

/-- A marker in front of a symbol can be moved behind it. -/
theorem advanceOver_eq (room : g.HasRoom) (x : Symbol) {l : List Item}
    (hrules : ∀ i ∈ l, ∃ r, g.rule? i.rule = some r) :
    advanceOver g x l =
      .ok ((l.filter fun i => decide (i.next? g = some x)).map Item.advance) := by
  induction l with
  | nil => rfl
  | cons i l ih =>
    have hrest := ih fun j hj => hrules j (List.mem_cons_of_mem _ hj)
    obtain ⟨r, hr⟩ := hrules i (List.mem_cons_self ..)
    unfold advanceOver
    rw [next_eq hr, ok_bind, hrest]
    by_cases hnext : i.next? g = some x
    · have hadvance := advance_eq (Item.marker_lt_capacity room hnext)
      rw [if_pos hnext, hadvance, ok_bind, ok_bind, List.filter_cons_of_pos (by simpa using hnext)]
      rfl
    · rw [if_neg hnext, List.filter_cons_of_neg (by simpa using hnext)]

/-- **The goto sets of items of rules do not fail.** -/
theorem goto_eq (wf : g.WellFormed) (room : g.HasRoom) {s : ItemSet}
    (hrules : ∀ i ∈ s, ∃ r, g.rule? i.rule = some r) (x : Symbol) :
    goto g s x = .ok (s.goto g x) := by
  unfold goto
  rw [advanceOver_eq room x hrules, ok_bind]
  refine closure_eq wf fun i hi => ?_
  obtain ⟨j, hj, rfl⟩ := List.mem_map.mp hi
  exact hrules j (List.mem_of_mem_filter hj)

end Checked

end ShiftReduce
