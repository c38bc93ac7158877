import ShiftReduce.Proofs.CanonicalCollection
import ShiftReduce.Proofs.Reachability
import ShiftReduce.Proofs.NumbersByNames

/-! # Rules that are not reached leave no trace

When rules are dropped whose heads are not reached from the start symbol, the automaton stays the same.
The rules that are left keep their order, so that items and goto sets are listed in the same order under
the new numbers (`Renumbering.Embeds.itemSets_eq`), and the states get the same numbers
(`Renumbering.Embeds.toList_states`). A rule that is left may have had a later copy only among those that
are left, as copies have the same head (`embeds_dropRules`). -/

namespace ShiftReduce

/-! ## Numbers that keep the order of rules -/

namespace Renumbering

variable {ρ : Renumbering}

/-- A state under other numbers. -/
def state (ρ : Renumbering) (s : State) : State :=
  ⟨ρ.items s.items, s.edges.map fun (x, j) => (ρ.symbol x, j)⟩

/-- A transition on the other number of its symbol. -/
def transition (ρ : Renumbering) (t : Transition) : Transition :=
  ⟨t.source, t.target, ρ.symbol t.symbol⟩

/-- Items stay in their order. -/
theorem items_items (hmono : StrictMono ρ.rule) (s : ItemSet) :
    (ρ.items s).items = s.items.map ρ.item := by
  refine eq_of_pairwise_lt (ρ.items s).sorted ?_ fun i => ItemSet.mem_ofList
  refine s.sorted.map _ fun a b hab => ?_
  rcases hab with hrule | ⟨hrule, hmarker⟩
  · exact Or.inl (hmono hrule)
  · exact Or.inr ⟨congrArg ρ.rule hrule, hmarker⟩

namespace Embeds

variable {g g' : Grammar} {live : Nonterminal → Prop} {s : ItemSet}

/-- The symbols are expected in the same order. -/
theorem expected_items (h : ρ.Embeds g g' live) (hmono : StrictMono ρ.rule)
    (hs : ∀ i ∈ s, IsLive g live i) :
    (ρ.items s).expected g' = (s.expected g).map ρ.symbol := by
  have hnext : (s.items.map ρ.item).filterMap (·.next? g') =
      (s.items.filterMap (·.next? g)).map ρ.symbol := by
    rw [List.filterMap_map, List.map_filterMap]
    exact List.filterMap_congr fun i hi => h.next?_item (hs i hi)
  unfold ItemSet.expected
  rw [items_items hmono, hnext]
  exact eraseDups_map fun x _ y _ hxy => symbol_injective hxy

/-- The goto sets come in the same order. -/
theorem gotos_items (h : ρ.Embeds g g' live) (hmono : StrictMono ρ.rule)
    (hs : ∀ i ∈ s, IsLive g live i) : (ρ.items s).gotos g' = (s.gotos g).map ρ.items := by
  unfold ItemSet.gotos
  rw [h.expected_items hmono hs, List.map_map, List.map_map]
  exact List.map_congr_left fun x _ => h.goto_items hs x

/-- The item sets are found in the same order. -/
theorem collect_items (h : ρ.Embeds g g' live) (hmono : StrictMono ρ.rule) (bound i : Nat)
    {found : List ItemSet} (hfound : ∀ s ∈ found, ∀ i ∈ s, IsLive g live i) :
    Automaton.collect g' bound i (found.map ρ.items) =
      (Automaton.collect g bound i found).map ρ.items := by
  induction bound generalizing i found with
  | zero => rfl
  | succ bound ih =>
    unfold Automaton.collect
    rw [List.getElem?_map]
    cases hitems : found[i]? with
    | none => rfl
    | some items =>
      have hlive := hfound items (List.mem_of_getElem? hitems)
      have hmore : ∀ s ∈ found ++ items.gotos g, ∀ i ∈ s, IsLive g live i := by
        intro s hs
        rcases List.mem_append.mp hs with hs | hs
        · exact hfound s hs
        · obtain ⟨x, -, rfl⟩ := ItemSet.mem_gotos.mp hs
          exact h.isLive_of_mem_goto hlive x
      show Automaton.collect g' bound (i + 1)
        (found.map ρ.items ++ (ρ.items items).gotos g').eraseDups = _
      rw [h.gotos_items hmono hlive, ← List.map_append,
        eraseDups_map fun s hs t ht => h.items_inj (hmore s hs) (hmore t ht)]
      exact ih (i + 1) fun s hs => hmore s (List.mem_eraseDups.mp hs)

/-- **The item sets are the same in the same order.** -/
theorem itemSets_eq (h : ρ.Embeds g g' live) (hmono : StrictMono ρ.rule) :
    Automaton.itemSets g' = (Automaton.itemSets g).map ρ.items := by
  have hsame : Automaton.collect g' (2 ^ Automaton.itemCount g) 0 [Automaton.startItems g'] =
      (Automaton.itemSets g).map ρ.items := by
    have hlive : ∀ s ∈ [Automaton.startItems g], ∀ i ∈ s, IsLive g live i := by
      intro s hs
      obtain rfl := List.mem_singleton.mp hs
      exact h.isLive_of_mem_closure h.isLive_start
    rw [h.startItems_eq]
    exact h.collect_items hmono _ 0 hlive
  -- both bounds suffice, so that they give the same as their sum
  have hroom : (Automaton.collect g' (2 ^ Automaton.itemCount g) 0
      [Automaton.startItems g']).length ≤ 0 + 2 ^ Automaton.itemCount g := by
    rw [hsame, List.length_map, Nat.zero_add]
    exact Automaton.length_itemSets_le h.wf
  have hroom' : (Automaton.collect g' (2 ^ Automaton.itemCount g') 0
      [Automaton.startItems g']).length ≤ 0 + 2 ^ Automaton.itemCount g' := by
    rw [Nat.zero_add]
    exact Automaton.length_itemSets_le h.wf'
  have hsum := Automaton.collect_add _ (2 ^ Automaton.itemCount g') 0 hroom
  rw [Nat.add_comm, Automaton.collect_add _ _ 0 hroom', hsame] at hsum
  exact hsum

/-- **The states are the same under the same numbers.** -/
theorem toList_states (h : ρ.Embeds g g' live) (hmono : StrictMono ρ.rule) :
    (Automaton.ofGrammar g').states.toList =
      (Automaton.ofGrammar g).states.toList.map ρ.state := by
  rw [Automaton.toList_states h.wf', Automaton.toList_states h.wf, h.itemSets_eq hmono,
    List.map_map, List.map_map]
  refine List.map_congr_left fun s hs => ?_
  have hlive := h.isLive_of_mem_itemSets s hs
  show Automaton.stateOf g' ((Automaton.itemSets g).map ρ.items) (ρ.items s) =
    ρ.state (Automaton.stateOf g (Automaton.itemSets g) s)
  unfold Automaton.stateOf state
  rw [h.expected_items hmono hlive, List.map_map, List.map_map]
  refine congrArg (State.mk _) (List.map_congr_left fun x hx => ?_)
  show (ρ.symbol x, ((Automaton.itemSets g).map ρ.items).idxOf ((ρ.items s).goto g' (ρ.symbol x))) =
    (ρ.symbol x, (Automaton.itemSets g).idxOf (s.goto g x))
  rw [h.goto_items hlive, idxOf_map fun t ht =>
    h.items_inj (h.isLive_of_mem_itemSets t ht) (h.isLive_of_mem_goto hlive x)]

/-- The transitions are the same. -/
theorem transitions_eq (h : ρ.Embeds g g' live) (hmono : StrictMono ρ.rule) :
    (Automaton.ofGrammar g').transitions =
      (Automaton.ofGrammar g).transitions.map ρ.transition := by
  rw [Automaton.transitions_eq, Automaton.transitions_eq, h.toList_states hmono, List.zipIdx_map,
    List.flatMap_map, List.map_flatMap]
  refine List.flatMap_congr fun e _ => ?_
  show ((e.1.edges.map _).map _) = (e.1.edges.map _).map ρ.transition
  rw [List.map_map, List.map_map]
  rfl

end Embeds

end Renumbering

/-! ## Dropping rules -/

/-- A rule list without the rules at some places. -/
def dropRules (drop : Nat → Bool) (defs : List RuleDef) : List RuleDef :=
  (defs.zipIdx.filter fun e => !drop e.2).map (·.1)

section DropRules

variable {drop : Nat → Bool} {defs : List RuleDef}

/-- What is left are rules of the list. -/
theorem dropRules_subset (drop : Nat → Bool) (defs : List RuleDef) :
    ∀ d ∈ dropRules drop defs, d ∈ defs := by
  intro d hd
  obtain ⟨⟨d, k⟩, he, rfl⟩ := List.mem_map.mp hd
  exact List.mem_of_getElem? (List.mem_zipIdx_iff_getElem?.mp (List.mem_filter.mp he).1)

/-- No more rules are left than there were. -/
theorem length_dropRules_le : (dropRules drop defs).length ≤ defs.length := by
  have hle := List.length_filter_le (fun e : RuleDef × Nat => !drop e.2) defs.zipIdx
  rwa [List.length_zipIdx, ← List.length_map (·.1)] at hle

end DropRules

/-- A function gives the places in the whole list of the rules that are left. -/
structure IsPlaces (drop : Nat → Bool) (defs : List RuleDef) (f : Nat → Nat) : Prop where
  /-- the rules keep their order -/
  strictMono : StrictMono f
  /-- a rule that is left stands at its place in the whole list -/
  getElem? : ∀ i : Nat, (dropRules drop defs)[i]? = defs[f i]?
  /-- what is not dropped is left -/
  onto : ∀ k, k < defs.length → drop k = false → ∃ i, f i = k

/-- The rules that are left have places in the whole list. -/
theorem exists_isPlaces (drop : Nat → Bool) (defs : List RuleDef) : ∃ f, IsPlaces drop defs f := by
  obtain ⟨f, hf⟩ := List.sublist_iff_exists_orderEmbedding_getElem?_eq.mp
    (List.filter_sublist (p := fun e : RuleDef × Nat => !drop e.2) (l := defs.zipIdx))
  refine ⟨f, f.strictMono, fun i => ?_, fun k hk hdrop => ?_⟩
  · unfold dropRules
    rw [List.getElem?_map, hf, List.getElem?_zipIdx, Option.map_map]
    exact congrFun Option.map_id_fun _
  · -- the rule is left together with its place
    have hmem : (defs[k], k) ∈ defs.zipIdx.filter fun e => !drop e.2 :=
      List.mem_filter.mpr ⟨List.mem_zipIdx_iff_getElem?.mpr (List.getElem?_eq_getElem hk), by
        simp [hdrop]⟩
    obtain ⟨i, hi⟩ := List.mem_iff_getElem?.mp hmem
    rw [hf, List.getElem?_zipIdx, Option.map_eq_some_iff] at hi
    obtain ⟨d, -, heq⟩ := hi
    exact ⟨i, by simpa using congrArg Prod.snd heq⟩

/-- The number that a rule that is left has with all rules, when its place there is known. -/
def keptNumber (f : Nat → Nat) : Nat → Nat
  | 0 => 0
  | k + 1 => f k + 1

/-- The rules that are left keep their order. -/
theorem strictMono_keptNumber {f : Nat → Nat} (hf : StrictMono f) : StrictMono (keptNumber f) := by
  intro i j hij
  cases j with
  | zero => exact absurd hij (Nat.not_lt_zero i)
  | succ j =>
    cases i with
    | zero => exact Nat.succ_pos _
    | succ i => exact Nat.succ_lt_succ (hf (Nat.lt_of_succ_lt_succ hij))

/-- The numbers that what is left has with all rules. -/
def keptRenumbering (drop : Nat → Bool) {defs : List RuleDef} (hvalid : ∀ d ∈ defs, d.IsValid)
    (f : Nat → Nat) : Renumbering :=
  .between (dropRules_subset drop defs) hvalid (keptNumber f)

/-! ## Dropping rules that are not reached -/

/-- At some places of the rule list of a grammar there are only rules whose heads are not reached from
the start symbol. -/
def Grammar.IsUnreached (g : Grammar) (drop : Nat → Bool) : Prop :=
  ∀ k r, drop k = true → g.rule? (k + 1) = some r → ¬ g.IsReachable r.left

section Embedding

variable {drop : Nat → Bool} {defs : List RuleDef} {g g' : Grammar} {f : Nat → Nat}

/-- A rule of a reachable nonterminal is left. -/
theorem Grammar.IsUnreached.exists_place (hdrop : g'.IsUnreached drop) (hf : IsPlaces drop defs f)
    (hg' : g'.IsNumbered defs) {k : Nat} {r : Rule} (hr : g'.rule? (k + 1) = some r)
    (hreach : g'.IsReachable r.left) : ∃ i, f i = k := by
  have hk : k < defs.length := by
    rw [hg'.rule?_succ, Option.map_eq_some_iff] at hr
    obtain ⟨d, hd, -⟩ := hr
    exact (List.getElem?_eq_some_iff.mp hd).1
  refine hf.onto k hk ?_
  by_contra hnot
  exact hdrop k r (by simpa using hnot) hr hreach

/-- It is the rule that is written at this place. -/
theorem Grammar.IsUnreached.exists_kept (hdrop : g'.IsUnreached drop) (hf : IsPlaces drop defs f)
    (hg' : g'.IsNumbered defs) {k : Nat} {r : Rule} (hr : g'.rule? (k + 1) = some r)
    (hreach : g'.IsReachable r.left) : ∃ i d, f i = k ∧ (dropRules drop defs)[i]? = some d ∧
      ruleOf (terminalNames defs) ("" :: writtenNonterminals defs) d = r := by
  obtain ⟨i, rfl⟩ := hdrop.exists_place hf hg' hr hreach
  rw [hg'.rule?_succ, ← hf.getElem?, Option.map_eq_some_iff] at hr
  obtain ⟨d, hd, rfl⟩ := hr
  exact ⟨i, d, rfl, hd, rfl⟩

/-- The first rule is left, as its head is the start symbol. -/
theorem Grammar.IsUnreached.head?_dropRules (hdrop : g'.IsUnreached drop)
    (hg' : Grammar.augment defs = .ok g') : (dropRules drop defs).head? = defs.head? := by
  obtain ⟨f, hf⟩ := exists_isPlaces drop defs
  have haug := Grammar.isAugmentation_of_augment hg'
  have hn := Grammar.isNumbered_of_augment hg'
  obtain ⟨d, rest, hdefs⟩ := List.exists_cons_of_ne_nil haug.nonempty
  have hrule : g'.rule? (0 + 1) =
      some (ruleOf (terminalNames defs) ("" :: writtenNonterminals defs) d) := by
    rw [hn.rule?_succ, hdefs]
    rfl
  have hleft : (ruleOf (terminalNames defs) ("" :: writtenNonterminals defs) d).left = g'.start := by
    rw [ruleOf_cons rfl haug.isNonterminalName_startName _ _
      (haug.valid d (hdefs ▸ List.mem_cons_self ..)), ← haug.nonterminalNames_eq, haug.start]
    exact congrArg Nonterminal.mk (haug.idxOf_head hdefs)
  obtain ⟨i, hi⟩ := hdrop.exists_place hf hn hrule (hleft ▸ .start)
  obtain rfl : i = 0 := Nat.le_zero.mp (hi ▸ hf.strictMono.le_apply)
  rw [List.head?_eq_getElem?, List.head?_eq_getElem?, hf.getElem?, hi]

/-- What is left of an accepted rule list is accepted. -/
theorem Grammar.IsUnreached.exists_augment (hdrop : g'.IsUnreached drop)
    (hg' : Grammar.augment defs = .ok g') : ∃ g, Grammar.augment (dropRules drop defs) = .ok g := by
  have hn' := Grammar.isNumbered_of_augment hg'
  refine Grammar.exists_augment ?_ ?_ ?_ ?_
  · intro hnil
    have hhead := hdrop.head?_dropRules hg'
    rw [hnil] at hhead
    exact hn'.nonempty (List.head?_eq_none_iff.mp hhead.symm)
  · exact fun d hd => hn'.valid d (dropRules_subset drop defs d hd)
  · have hsubset := terminalNames_subset (dropRules_subset drop defs)
    exact Nat.le_trans ((nodup_eraseDups _).subperm hsubset).length_le hn'.terminals_le
  · exact Nat.le_trans length_dropRules_le hn'.rules_le

/-- The last copy of a reachable rule is left, and stays the last one. -/
theorem Grammar.IsUnreached.usesRule (hdrop : g'.IsUnreached drop) (hf : IsPlaces drop defs f)
    (hn : g.IsNumbered (dropRules drop defs)) (hn' : g'.IsNumbered defs) {k : Nat} {r : Rule}
    (hk : g.UsesRule (k + 1) r)
    (hreach : g'.IsReachable ((keptRenumbering drop hn'.valid f).nonterminal r.left)) :
    g'.UsesRule (f k + 1) ((keptRenumbering drop hn'.valid f).ofRule r) := by
  rw [Grammar.usesRule_iff] at hk ⊢
  obtain ⟨hr, hlast⟩ := hk
  rw [hn.rule?_succ, Option.map_eq_some_iff] at hr
  obtain ⟨d, hd, rfl⟩ := hr
  have hrule : ∀ d ∈ dropRules drop defs, (keptRenumbering drop hn'.valid f).ofRule
      (ruleOf (terminalNames (dropRules drop defs)) ("" :: writtenNonterminals (dropRules drop defs))
        d) = ruleOf (terminalNames defs) ("" :: writtenNonterminals defs) d := fun d hd =>
    Renumbering.between_ruleOf _ _ _ hd
  refine ⟨?_, fun j hj => ?_⟩
  · rw [hn'.rule?_succ, ← hf.getElem?, hd, hrule d (List.mem_of_getElem? hd)]
    rfl
  · cases j with
    | zero => exact Nat.zero_le _
    | succ j =>
      -- a later copy has the same head, so that it is left, too
      obtain ⟨i, d', rfl, hd', heq⟩ := hdrop.exists_kept hf hn' hj hreach
      rw [← hrule d' (List.mem_of_getElem? hd')] at heq
      have hcopy := hlast (i + 1)
        (by rw [hn.rule?_succ, hd', Option.map_some, Renumbering.ofRule_injective heq])
      exact Nat.succ_le_succ (hf.strictMono.monotone (Nat.le_of_succ_le_succ hcopy))

/-- The bodies of rules whose heads are reachable under other numbers lead to reachable nonterminals. -/
theorem Renumbering.isReachable_of_mem_body {ρ : Renumbering} (wf : g.WellFormed)
    (wf' : g'.WellFormed) (hfresh : ρ.nonterminal .freshStart = .freshStart)
    (hstart : ρ.nonterminal g.start = g'.start) {r : Rule} (hr : r ∈ g.rules.toList)
    (hr' : ρ.ofRule r ∈ g'.rules.toList)
    (hlive : r.left = .freshStart ∨ g'.IsReachable (ρ.nonterminal r.left)) {n : Nonterminal}
    (hn : .nonterminal n ∈ r.right.toList) : g'.IsReachable (ρ.nonterminal n) := by
  rcases wf.eq_or_mem_inputRules hr with rfl | hinput
  · obtain rfl : n = g.start := by simpa using hn
    exact hstart ▸ .start
  · have hleft := (wf.hasSymbol_left r hinput).1
    have hinput' : ρ.ofRule r ∈ g'.inputRules := by
      refine (wf'.eq_or_mem_inputRules hr').resolve_left fun heq => hleft ?_
      exact ρ.nonterminal_injective ((congrArg Rule.left heq).trans hfresh.symm)
    refine (hlive.resolve_left hleft).rule hinput' ?_
    rw [right_ofRule]
    exact List.mem_map_of_mem hn

/-- **What is left are the rules of the reachable nonterminals** under other numbers. -/
theorem Grammar.IsUnreached.embeds (hdrop : g'.IsUnreached drop)
    (hg' : Grammar.augment defs = .ok g') (hg : Grammar.augment (dropRules drop defs) = .ok g)
    (hf : IsPlaces drop defs f) (hvalid : ∀ d ∈ defs, d.IsValid) {ρ : Renumbering}
    (hρ : ρ = keptRenumbering drop hvalid f) :
    ρ.Embeds g g' fun n => n = .freshStart ∨ g'.IsReachable (ρ.nonterminal n) := by
  have wf := Grammar.wellFormed_of_augment hg
  have wf' := Grammar.wellFormed_of_augment hg'
  have hn := Grammar.isNumbered_of_augment hg
  have hn' := Grammar.isNumbered_of_augment hg'
  have hhead : (dropRules drop defs).head?.map (·.head) = defs.head?.map (·.head) := by
    rw [hdrop.head?_dropRules hg']
  have hfresh : ρ.nonterminal .freshStart = .freshStart := hρ ▸ Renumbering.between_freshStart ..
  have hstart : ρ.nonterminal g.start = g'.start := by
    rw [hn.start, hn'.start, hρ]
    exact Renumbering.between_start _ _ _ hn.nonempty hhead
  have hstartRule : ρ.ofRule ⟨.freshStart, #[.nonterminal g.start]⟩ =
      ⟨.freshStart, #[.nonterminal g'.start]⟩ := by
    rw [hn.start, hn'.start, hρ]
    exact Renumbering.between_startRule _ _ _ hn.nonempty hhead
  exact {
    wf := wf
    wf' := wf'
    freshStart := hfresh
    live_freshStart := Or.inl rfl
    live_body := by
      intro r hr hlive n hbody
      have hr' : ρ.ofRule r ∈ g'.rules.toList := by
        rw [hρ]
        exact Renumbering.ofRule_mem_rules _ _ _ hn hn' hhead hr
      exact Or.inr (Renumbering.isReachable_of_mem_body wf wf' hfresh hstart hr hr' hlive hbody)
    usesRule := by
      intro k r hk hlive
      cases k with
      | zero =>
        obtain rfl := Option.some.inj (wf.rule?_zero.symm.trans hk.1)
        rw [hstartRule, hρ]
        exact wf'.usesRule_zero
      | succ k =>
        have hleft := (wf.hasSymbol_left r (wf.mem_inputRules (Nat.succ_ne_zero k) hk.1)).1
        have hreach := hlive.resolve_left hleft
        subst hρ
        exact hdrop.usesRule hf hn hn' hk hreach
    exists_rule := by
      intro r' hr' n hlive hleft
      obtain ⟨k, hk⟩ := List.mem_iff_getElem?.mp hr'
      rw [← g'.rule?_eq_toList] at hk
      cases k with
      | zero =>
        obtain rfl := Option.some.inj (wf'.rule?_zero.symm.trans hk)
        exact ⟨_, Grammar.mem_rules_of_rule? wf.rule?_zero, hstartRule.symm⟩
      | succ k =>
        have hinput := (wf'.hasSymbol_left r' (wf'.mem_inputRules (Nat.succ_ne_zero k) hk)).1
        have hreach : g'.IsReachable r'.left := by
          rw [hleft]
          exact hlive.resolve_left fun heq => hinput (by rw [hleft, heq, hfresh])
        obtain ⟨i, d, -, hd, rfl⟩ := hdrop.exists_kept hf hn' hk hreach
        have hd' := List.mem_of_getElem? hd
        refine ⟨_, hn.mem_rules.mpr (Or.inr ⟨d, hd', rfl⟩), ?_⟩
        rw [hρ]
        exact (Renumbering.between_ruleOf _ _ _ hd').symm }

end Embedding

/-! ## Texts -/

/-- A rule with a dot is written with its head in front, and what follows is the same over symbols of the
same names. -/
theorem exists_ruleText {g g' : Grammar} {ρ : Renumbering} {r : Rule}
    (hname : ∀ x ∈ r.right.toList, g'.symbolName (ρ.symbol x) = g.symbolName x) (marker : Nat) :
    ∃ rest, Item.ruleText g r marker = g.nonterminalName r.left ++ rest ∧
      Item.ruleText g' (ρ.ofRule r) marker = g'.nonterminalName (ρ.ofRule r).left ++ rest := by
  have hnames : (ρ.ofRule r).right.toList.map g'.symbolName = r.right.toList.map g.symbolName := by
    rw [Renumbering.right_ofRule, List.map_map]
    exact List.map_congr_left hname
  unfold Item.ruleText
  rw [hnames]
  simp only [List.cons_append, String.intercalate_cons_cons, String.append_assoc]
  exact ⟨_, rfl, rfl⟩

/-- The automata of two grammars are the same but for the numbers of rules and symbols and for the name
of the fresh start symbol. The rules keep their order. -/
structure Grammar.SameStates (φ : Nat → Nat) (g g' : Grammar) : Prop where
  /-- rules keep their order -/
  strictMono : StrictMono φ
  /-- rule `0` starts the derivations in both -/
  zero : φ 0 = 0
  /-- there are as many states -/
  size : (Automaton.ofGrammar g').states.size = (Automaton.ofGrammar g).states.size
  /-- the states with one number have the same items, in the same order -/
  items : ∀ i s s', (Automaton.ofGrammar g).state? i = some s →
    (Automaton.ofGrammar g').state? i = some s' →
      s'.items.items = s.items.items.map fun j => ⟨φ j.rule, j.marker⟩
  /-- the items of rules that were read are written in the same way -/
  text : ∀ i s, (Automaton.ofGrammar g).state? i = some s → ∀ j ∈ s.items, j.rule ≠ 0 →
    ∃ text, j.text? g = some text ∧ Item.text? g' ⟨φ j.rule, j.marker⟩ = some text
  /-- the items of rule `0` are written in the same way behind the fresh start symbol -/
  startText : ∀ marker, ∃ rest,
    Item.text? g ⟨0, marker⟩ = some (g.nonterminalName .freshStart ++ rest) ∧
      Item.text? g' ⟨φ 0, marker⟩ = some (g'.nonterminalName .freshStart ++ rest)
  /-- the transitions are the same, by the names of the symbols -/
  transitions : (Automaton.ofGrammar g').transitions.map
      (fun t => (t.source, t.target, g'.symbolName t.symbol)) =
    (Automaton.ofGrammar g).transitions.map fun t => (t.source, t.target, g.symbolName t.symbol)

/-- Embedded grammars have the same automata when the rules keep their order and the symbols their
names. -/
theorem Renumbering.Embeds.sameStates {ρ : Renumbering} {g g' : Grammar} {live : Nonterminal → Prop}
    (h : ρ.Embeds g g' live) (hmono : StrictMono ρ.rule)
    (hname : ∀ x, g.HasSymbol x → g'.symbolName (ρ.symbol x) = g.symbolName x) :
    g.SameStates ρ.rule g' where
  strictMono := hmono
  zero := h.rule_zero
  size := by
    rw [← Array.length_toList, h.toList_states hmono, List.length_map, Array.length_toList]
  items := by
    intro i s s' hs hs'
    rw [Automaton.state?, ← Array.getElem?_toList, h.toList_states hmono, List.getElem?_map,
      Array.getElem?_toList, ← Automaton.state?, hs] at hs'
    obtain rfl := Option.some.inj hs'
    exact items_items hmono s.items
  text := by
    intro i s hs j hj hzero
    obtain ⟨r, hr, hlive⟩ := h.isLive_of_state? hs j hj
    have hmem := h.wf.mem_inputRules hzero hr.1
    obtain ⟨rest, hrest, hrest'⟩ := exists_ruleText
      (fun x hx => hname x (h.wf.hasSymbol_right r hmem x hx)) j.marker
    have hleft : g'.nonterminalName (ρ.ofRule r).left = g.nonterminalName r.left :=
      hname _ (h.wf.hasSymbol_left r hmem)
    refine ⟨g.nonterminalName r.left ++ rest, ?_, ?_⟩
    · rw [Item.text?, hr.1, Option.map_some, hrest]
    · rw [Item.text?, (h.usesRule _ r hr hlive).1, Option.map_some, hrest', hleft]
  startText := by
    intro marker
    have hstart := h.usesRule 0 _ h.wf.usesRule_zero h.live_freshStart
    have hnames : ∀ x ∈ #[Symbol.nonterminal g.start].toList,
        g'.symbolName (ρ.symbol x) = g.symbolName x := by
      intro x hx
      rw [List.mem_singleton.mp hx]
      exact hname _ h.wf.hasSymbol_start
    obtain ⟨rest, hrest, hrest'⟩ :=
      exists_ruleText (r := ⟨.freshStart, #[.nonterminal g.start]⟩) hnames marker
    rw [left_ofRule, h.freshStart] at hrest'
    refine ⟨rest, ?_, ?_⟩
    · rw [Item.text?, h.wf.rule?_zero, Option.map_some, hrest]
    · rw [Item.text?, hstart.1, Option.map_some, hrest']
  transitions := by
    rw [h.transitions_eq hmono, List.map_map]
    refine List.map_congr_left fun t ht => ?_
    -- a symbol that is read stands in a body
    obtain ⟨s, hs, hedge⟩ := Automaton.mem_transitions.mp ht
    have hexpected : t.symbol ∈ s.items.expected g := by
      rw [← Automaton.edges_keys h.wf hs]
      exact List.mem_map_of_mem (f := (·.1)) hedge
    obtain ⟨j, -, hnext⟩ := ItemSet.mem_expected.mp hexpected
    obtain ⟨r, hr, hget⟩ := Item.next?_eq_some.mp hnext
    have hsymbol := h.wf.hasSymbol_of_mem (Grammar.mem_rules_of_rule? hr) (List.mem_of_getElem? hget)
    show (t.source, t.target, g'.symbolName (ρ.symbol t.symbol)) = _
    rw [hname _ hsymbol]

/-! ## A rule list -/

/-- A nonterminal that is not reached has rules between those of the start symbol, one of which comes
twice. One of them has symbols that stand nowhere else. -/
def strayRules : List RuleDef :=
  [⟨"S", ["a", "S"]⟩, ⟨"X", ["x", "Y"]⟩, ⟨"S", ["b"]⟩, ⟨"S", ["a", "S"]⟩, ⟨"X", ["S"]⟩]

/-- The rule at place `1` is not reached. -/
theorem isUnreached_strayRules {g : Grammar} (h : g.SameNumbers (.ofDefs strayRules)) :
    g.IsUnreached (· == 1) := by
  have hrules : g.inputRules = [⟨⟨1⟩, #[.terminal ⟨1⟩, .nonterminal ⟨1⟩]⟩,
      ⟨⟨2⟩, #[.terminal ⟨2⟩, .nonterminal ⟨3⟩]⟩, ⟨⟨1⟩, #[.terminal ⟨3⟩]⟩,
      ⟨⟨1⟩, #[.terminal ⟨1⟩, .nonterminal ⟨1⟩]⟩, ⟨⟨2⟩, #[.nonterminal ⟨1⟩]⟩] := h.inputRules
  have hone : ∀ n, g.IsReachable n → n = ⟨1⟩ := by
    intro n hn
    induction hn with
    | start => exact h.start
    | rule _ hr hmem ih =>
      rw [hrules] at hr
      fin_cases hr <;> simp_all
  intro k r hk hr hreach
  obtain rfl : k = 1 := by simpa using hk
  rw [h.rule?] at hr
  obtain rfl : (⟨⟨2⟩, #[.terminal ⟨2⟩, .nonterminal ⟨3⟩]⟩ : Rule) = r := Option.some.inj hr
  exact absurd (hone _ hreach) (by decide)

namespace Automaton

/-- **Rules that are not reached leave no trace in the automaton.** When any rules are dropped whose
heads are not reached from the start symbol, the list is accepted, and the automaton has the same states
under the same numbers and the same transitions. -/
theorem exists_sameStates_dropRules {defs : List RuleDef} {g' : Grammar}
    (h : Grammar.augment defs = .ok g') {drop : Nat → Bool} (hdrop : g'.IsUnreached drop) :
    ∃ g φ, Grammar.augment (dropRules drop defs) = .ok g ∧ g.SameStates φ g' := by
  obtain ⟨g, hg⟩ := hdrop.exists_augment h
  obtain ⟨f, hf⟩ := exists_isPlaces drop defs
  have haug := Grammar.isAugmentation_of_augment hg
  have haug' := Grammar.isAugmentation_of_augment h
  have hembeds := hdrop.embeds h hg hf haug'.valid rfl
  refine ⟨g, keptNumber f, hg, hembeds.sameStates (strictMono_keptNumber hf.strictMono) ?_⟩
  exact fun x hx => Renumbering.symbolName_between _ _ _ haug haug' hx

/-- The rules without one that is not reached. -/
theorem exists_sameStates_dropRules_strayRules : ∃ g', Grammar.augment strayRules = .ok g' ∧
    g'.IsUnreached (· == 1) ∧
    ∃ g φ, Grammar.augment (dropRules (· == 1) strayRules) = .ok g ∧ g.SameStates φ g' := by
  obtain ⟨g', hg'⟩ : ∃ g', Grammar.augment strayRules = .ok g' :=
    Grammar.exists_augment (by decide) (by unfold RuleDef.IsValid; decide) (by decide) (by decide)
  have hdrop := isUnreached_strayRules (Grammar.sameNumbers_ofDefs hg')
  exact ⟨g', hg', hdrop, exists_sameStates_dropRules hg' hdrop⟩

end Automaton

end ShiftReduce
