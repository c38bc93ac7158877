import ShiftReduce.Proofs.Evaluation
import ShiftReduce.Proofs.StateCounter
import Mathlib.Data.Nat.ChineseRemainder

/-! # Cycles of coprime lengths

A rule that reads a terminal some times and then begins again makes its items tell how often the terminal
has been read, modulo the length of this cycle (`Grammar.IsCycle.mem_reading`,
`Grammar.IsCycle.mod_of_mem_reading`). Cycles that begin together count independently. So with lengths that are
pairwise coprime there are at least as many states as the product of the lengths
(`Automaton.prod_le_size`), although the rules only have as many symbols as the sum of them, and ten
short cycles fill the counter of states (`NumberedWorklist.exists_wrapped`). -/

namespace ShiftReduce

/-! ## Reading a terminal again and again -/

/-- What is valid after a symbol has been read some times from the start. -/
def ItemSet.reading (g : Grammar) (x : Symbol) : Nat → ItemSet
  | 0 => Automaton.startItems g
  | n + 1 => (reading g x n).goto g x

/-- A rule that reads a symbol some times and then begins again. -/
structure Cycle where
  /-- the nonterminal that the rule replaces -/
  head : Nonterminal
  /-- the number of the rule -/
  rule : Nat
  /-- how many times it reads the symbol -/
  length : Nat

/-- The rule of a cycle. -/
def Cycle.toRule (c : Cycle) (t : Terminal) : Rule where
  left := c.head
  right := (List.replicate c.length (Symbol.terminal t) ++ [Symbol.nonterminal c.head]).toArray

namespace Grammar

/-- All places where nonterminals stand in bodies, as items with the marker in front of them. -/
def callPlaces (g : Grammar) : List (Item × Nonterminal) :=
  g.rules.toList.zipIdx.flatMap fun (r, k) =>
    r.right.toList.zipIdx.filterMap fun (x, m) => x.nonterminal?.map fun n => (⟨k, m⟩, n)

/-- The call places are the items that expect a nonterminal, each with what it expects. -/
theorem mem_callPlaces {g : Grammar} {i : Item} {n : Nonterminal} :
    (i, n) ∈ g.callPlaces ↔ i.next? g = some (.nonterminal n) := by
  rw [Item.next?_eq_some]
  simp only [callPlaces, List.mem_flatMap, List.mem_filterMap, Prod.exists, List.mem_zipIdx_iff_getElem?,
    Option.map_eq_some_iff, Symbol.nonterminal?_eq_some, Prod.mk.injEq, g.rule?_eq_toList]
  constructor
  · rintro ⟨r, k, hr, x, m, hget, n, rfl, rfl, rfl⟩
    exact ⟨r, hr, hget⟩
  · rintro ⟨r, hr, hget⟩
    exact ⟨r, i.rule, hr, _, i.marker, hget, n, rfl, rfl, rfl⟩

/-- What holds of the places where a nonterminal stands holds of all items that expect it. -/
theorem forall_of_callPlaces {g : Grammar} {n : Nonterminal} {P : Item → Prop}
    (h : ∀ e ∈ g.callPlaces, e.2 = n → P e.1) : ∀ i : Item, i.next? g = some (.nonterminal n) → P i :=
  fun _ hnext => h _ (mem_callPlaces.mpr hnext) rfl

/-- The start symbol only stands in the rule that starts the derivations. -/
def StartsOnce (g : Grammar) : Prop := ∀ i : Item, i.next? g = some (.nonterminal g.start) → i = .start

/-- The rule of a cycle reads a terminal, then begins again, and is called by itself and by rules of the
start symbol alone. -/
structure IsCycle (g : Grammar) (t : Terminal) (c : Cycle) : Prop where
  /-- something is read -/
  pos : 0 < c.length
  /-- the rule is used -/
  mem_rulesOf : c.rule ∈ g.rulesOf c.head
  /-- the terminal is read all along -/
  reads : ∀ m < c.length, Item.next? g ⟨c.rule, m⟩ = some (.terminal t)
  /-- behind it the rule begins again -/
  again : Item.next? g ⟨c.rule, c.length⟩ = some (.nonterminal c.head)
  /-- a rule of the start symbol begins with the cycle -/
  called : ∃ k ∈ g.rulesOf g.start, Item.next? g ⟨k, 0⟩ = some (.nonterminal c.head)
  /-- there are no other calls -/
  calls : ∀ i : Item, i.next? g = some (.nonterminal c.head) →
    i = ⟨c.rule, c.length⟩ ∨ i.marker = 0 ∧ i.rule ∈ g.rulesOf g.start

variable {g : Grammar} {t : Terminal} {c : Cycle}

/-- The head of a rule is told by its number. -/
theorem eq_of_mem_rulesOf {k : Nat} {n n' : Nonterminal} (h : k ∈ g.rulesOf n) (h' : k ∈ g.rulesOf n') :
    n = n' := by
  obtain ⟨r, hr, rfl, -⟩ := mem_rulesOf.mp h
  obtain ⟨r', hr', rfl, -⟩ := mem_rulesOf.mp h'
  rw [Option.some.inj (hr.symm.trans hr')]

/-- No rule of the start symbol begins in a goto set. -/
theorem StartsOnce.not_mem_goto (wf : g.WellFormed) (h : g.StartsOnce) {s : ItemSet} {x : Symbol}
    {i : Item} (hrule : i.rule ∈ g.rulesOf g.start) (hmarker : i.marker = 0) : i ∉ s.goto g x := by
  intro hi
  obtain ⟨n, hn, j, hj, hnext⟩ := ItemSet.expected_of_mem_goto wf hi hmarker
  obtain rfl := eq_of_mem_rulesOf hn hrule
  rw [h j hnext] at hj
  exact Automaton.start_not_mem_goto wf s x hj

namespace IsCycle

/-- The rule of a cycle begins at the start. -/
theorem initial_mem_startItems (wf : g.WellFormed) (h : g.IsCycle t c) :
    ⟨c.rule, 0⟩ ∈ Automaton.startItems g := by
  obtain ⟨k, hk, hnext⟩ := h.called
  have hstart : Item.next? g .start = some (.nonterminal g.start) := by
    rw [Item.next?_eq (i := .start) wf.rule?_zero]
    rfl
  have hcall : ⟨k, 0⟩ ∈ Automaton.startItems g :=
    ItemSet.initial_mem_closure wf Automaton.start_mem_startItems hstart hk
  exact ItemSet.initial_mem_closure wf hcall hnext h.mem_rulesOf

/-- **The marker in a cycle has gone round as often as the terminal has been read.** -/
theorem mem_reading (wf : g.WellFormed) (h : g.IsCycle t c) (n : Nat) :
    ⟨c.rule, n % c.length⟩ ∈ ItemSet.reading g (.terminal t) n := by
  induction n with
  | zero =>
    rw [Nat.zero_mod]
    exact h.initial_mem_startItems wf
  | succ n ih =>
    have hlt : n % c.length < c.length := Nat.mod_lt n h.pos
    have hnext : ⟨c.rule, n % c.length + 1⟩ ∈ ItemSet.reading g (.terminal t) (n + 1) :=
      ItemSet.advance_mem_goto ih (h.reads _ hlt)
    by_cases hround : n % c.length + 1 = c.length
    · -- a round is over, and the rule begins again
      have hzero : (n + 1) % c.length = 0 := by
        rw [← Nat.mod_add_mod, hround, Nat.mod_self]
      rw [hround] at hnext
      rw [hzero]
      exact ItemSet.initial_mem_closure wf hnext h.again h.mem_rulesOf
    · have hmod : (n + 1) % c.length = n % c.length + 1 := by
        rw [← Nat.mod_add_mod, Nat.mod_eq_of_lt (by omega)]
      rwa [hmod]

/-- **No other marker is in the cycle,** but for the end of a round beside its beginning. -/
theorem mod_of_mem_reading (wf : g.WellFormed) (hstart : g.StartsOnce) (h : g.IsCycle t c) {n m : Nat}
    (hm : ⟨c.rule, m⟩ ∈ ItemSet.reading g (.terminal t) n) :
    m ≤ c.length ∧ m % c.length = n % c.length := by
  induction n generalizing m with
  | zero =>
    obtain rfl : m = 0 := Automaton.marker_of_mem_startItems hm
    exact ⟨Nat.zero_le _, rfl⟩
  | succ n ih =>
    -- behind the terminal the marker is one further on
    have hadvanced {k : Nat} (hk : ⟨c.rule, k + 1⟩ ∈ ItemSet.reading g (.terminal t) (n + 1)) :
        k + 1 ≤ c.length ∧ (k + 1) % c.length = (n + 1) % c.length := by
      obtain ⟨j, hj, hnext, hadvance⟩ := ItemSet.exists_of_mem_goto wf hk (Nat.succ_ne_zero k)
      obtain rfl : j = ⟨c.rule, k⟩ := Item.advance_inj hadvance
      obtain ⟨hle, hmod⟩ := ih hj
      have hne : k ≠ c.length := by
        rintro rfl
        rw [h.again] at hnext
        cases hnext
      refine ⟨by omega, ?_⟩
      rw [← Nat.mod_add_mod, hmod, Nat.mod_add_mod]
    cases m with
    | succ k => exact hadvanced hm
    | zero =>
      refine ⟨Nat.zero_le _, ?_⟩
      obtain ⟨n', hn', j, hj, hnext⟩ := ItemSet.expected_of_mem_goto wf hm rfl
      obtain rfl := eq_of_mem_rulesOf hn' h.mem_rulesOf
      rcases h.calls j hnext with rfl | ⟨hmarker, hrule⟩
      · -- a round is over
        obtain ⟨k, hk⟩ : ∃ k, c.length = k + 1 := Nat.exists_eq_add_of_le' h.pos
        rw [hk] at hj
        have hmod := (hadvanced hj).2
        rw [← hk, Nat.mod_self] at hmod
        rw [← hmod, Nat.zero_mod]
      · exact absurd hj (hstart.not_mem_goto wf hrule hmarker)

/-- What is valid tells how often the terminal has been read, modulo the length of the cycle. -/
theorem mod_eq_of_reading_eq (wf : g.WellFormed) (hstart : g.StartsOnce) (h : g.IsCycle t c) {n n' : Nat}
    (heq : ItemSet.reading g (.terminal t) n = ItemSet.reading g (.terminal t) n') :
    n % c.length = n' % c.length := by
  have hmem := h.mem_reading wf n
  rw [heq] at hmem
  rw [← (h.mod_of_mem_reading wf hstart hmem).2, Nat.mod_mod]

/-- With a cycle the terminal can be read any number of times. -/
theorem reading_mem_itemSets (wf : g.WellFormed) (h : g.IsCycle t c) (n : Nat) :
    ItemSet.reading g (.terminal t) n ∈ Automaton.itemSets g := by
  induction n with
  | zero => exact List.mem_of_getElem? Automaton.getElem?_itemSets_zero
  | succ n ih =>
    refine Automaton.goto_mem_itemSets wf ih (ItemSet.mem_expected.mpr ?_)
    exact ⟨_, h.mem_reading wf n, h.reads _ (Nat.mod_lt n h.pos)⟩

end IsCycle

end Grammar

/-- **Cycles of coprime lengths multiply:** there are at least as many states as the product of the
lengths. -/
theorem Automaton.prod_le_size {g : Grammar} (wf : g.WellFormed) (hstart : g.StartsOnce) {t : Terminal}
    {cycles : List Cycle} (hne : cycles ≠ []) (hcycles : ∀ c ∈ cycles, g.IsCycle t c)
    (hcoprime : cycles.Pairwise (Function.onFun Nat.Coprime (·.length))) :
    (cycles.map (·.length)).prod ≤ (ofGrammar g).states.size := by
  obtain ⟨c, hc⟩ := List.exists_mem_of_ne_nil cycles hne
  have hnodup : ((List.range (cycles.map (·.length)).prod).map
      (ItemSet.reading g (.terminal t))).Nodup := by
    refine List.Nodup.map_on (fun i hi j hj heq => ?_) List.nodup_range
    rw [List.mem_range] at hi hj
    -- the numbers agree modulo all lengths, so modulo their product
    have hmod : i ≡ j [MOD (cycles.map (·.length)).prod] :=
      (Nat.modEq_list_map_prod_iff hcoprime).mpr fun c hc =>
        (hcycles c hc).mod_eq_of_reading_eq wf hstart heq
    exact Nat.ModEq.eq_of_lt_of_lt hmod hi hj
  have hsub : (List.range (cycles.map (·.length)).prod).map (ItemSet.reading g (.terminal t)) ⊆
      itemSets g := by
    intro s hs
    obtain ⟨n, -, rfl⟩ := List.mem_map.mp hs
    exact (hcycles c hc).reading_mem_itemSets wf n
  have hle := (List.subperm_of_subset hnodup hsub).length_le
  rw [List.length_map, List.length_range] at hle
  rwa [← Array.length_toList, toList_states wf, List.length_map]

/-! ## Ten cycles -/

/-- The lengths of some cycles, by their heads. -/
def cycleLengths : List (String × Nat) :=
  [("A", 2), ("B", 3), ("C", 5), ("D", 7), ("E", 11), ("F", 13), ("G", 17), ("H", 19), ("I", 23), ("J", 29)]

/-- The start symbol is replaced by the head of any cycle. -/
def coprimeRules : List RuleDef :=
  cycleLengths.map (fun c => ⟨"S", [c.1]⟩) ++
    cycleLengths.map fun c => ⟨c.1, List.replicate c.2 "n" ++ [c.1]⟩

/-- The cycles by number. -/
def coprimeCycles : List Cycle :=
  [⟨⟨2⟩, 11, 2⟩, ⟨⟨3⟩, 12, 3⟩, ⟨⟨4⟩, 13, 5⟩, ⟨⟨5⟩, 14, 7⟩, ⟨⟨6⟩, 15, 11⟩, ⟨⟨7⟩, 16, 13⟩, ⟨⟨8⟩, 17, 17⟩,
    ⟨⟨9⟩, 18, 19⟩, ⟨⟨10⟩, 19, 23⟩, ⟨⟨11⟩, 20, 29⟩]

/-- The rules by number. -/
theorem ofDefs_coprimeRules : Grammar.ofDefs coprimeRules =
    .ofNames ["$", "n"] ["", "S", "A", "B", "C", "D", "E", "F", "G", "H", "I", "J"] (by decide) (by decide)
      (coprimeCycles.map (fun c => ⟨⟨1⟩, #[.nonterminal c.head]⟩) ++
        coprimeCycles.map (·.toRule ⟨1⟩)) := by rfl

/-- No rule but the first one calls the start symbol. -/
theorem startsOnce_coprimeRules : (Grammar.ofDefs coprimeRules).StartsOnce := by
  rw [ofDefs_coprimeRules]
  refine Grammar.forall_of_callPlaces ?_
  decide

/-- Each of the ten cycles is one of the rule list. -/
theorem isCycle_coprimeCycles {c : Cycle} (hc : c ∈ coprimeCycles) :
    (Grammar.ofDefs coprimeRules).IsCycle ⟨1⟩ c := by
  rw [ofDefs_coprimeRules]
  constructor
  case pos => decide +revert
  case mem_rulesOf => decide +revert
  case reads => decide +revert
  case again => decide +revert
  case called => decide +revert
  case calls =>
    refine Grammar.forall_of_callPlaces ?_
    decide +revert

/-- **The counter of states may start again:** the cycles have more than `2 ^ 32` states, and two of them get
the same number. -/
theorem NumberedWorklist.exists_wrapped : ∃ g, Grammar.augment coprimeRules = .ok g ∧
    2 ^ 32 < (Automaton.ofGrammar g).states.size ∧
    ∃ w, Runs g w ∧ w.next? = none ∧ w.counter.wrapped = true ∧ ¬ (w.taken.map (·.number)).Nodup := by
  obtain ⟨g, hg⟩ : ∃ g, Grammar.augment coprimeRules = .ok g :=
    Grammar.exists_augment (by decide) (by unfold RuleDef.IsValid; decide) (by decide) (by decide)
  have wf := Grammar.wellFormed_of_augment hg
  have hsame := Grammar.sameNumbers_ofDefs hg
  have hne : coprimeCycles ≠ [] := by decide
  have hcoprime : coprimeCycles.Pairwise (Function.onFun Nat.Coprime (·.length)) := by
    unfold Function.onFun
    decide
  have hprod := Automaton.prod_le_size (hsame.wellFormed wf) startsOnce_coprimeRules hne
    (fun _ => isCycle_coprimeCycles) hcoprime
  have hvalue : (coprimeCycles.map (·.length)).prod = 6469693230 := by decide
  rw [hvalue, ← hsame.automaton] at hprod
  obtain ⟨w, hruns, hend⟩ := exists_runs_next?_eq_none wf
  refine ⟨g, hg, by omega, w, hruns, hend, ?_, ?_⟩
  · rw [hruns.wrapped_iff wf hend]
    omega
  · rw [hruns.nodup_iff wf hend]
    omega

end ShiftReduce
