import ShiftReduce.Proofs.Progress
import ShiftReduce.Proofs.Evaluation
import ShiftReduce.Proofs.Reachability

/-! # When the parser halts

A run with a consistent table can be replayed on other input: whatever stands behind the terminals that
were read, the same steps are made as long as the stack and the new rest are a form that the start symbol
derives (`Tables.Reaches.replay`). So when all reachable nonterminals derive words, each configuration of
an endless run occurs on the way to the acceptance of a word. Up to the first terminal of the new rest
these accepting runs only see which terminal it is, and with finitely many terminals an endless run would
make one of them longer than itself (`Tables.not_forall_lasts`). Hence the parser halts on every input,
also outside the language (`Tables.halts_of_isConsistent`).

Without the condition on nonterminals it need not. In `loopRules` the start symbol derives no word, and a
rule that the start symbol does not reach puts a terminal behind a nonterminal that vanishes: the parser
reduces the empty body for ever (`Tables.not_halts_loopRules`). -/

namespace ShiftReduce

/-- When at every number one of finitely many elements has a property that is kept when the number
becomes smaller, one of them has it at all numbers. -/
theorem exists_forall_of_antitone {α : Type} {p : α → Nat → Prop} {l : List α}
    (anti : ∀ a m n, m ≤ n → p a n → p a m) (h : ∀ n, ∃ a ∈ l, p a n) : ∃ a ∈ l, ∀ n, p a n := by
  by_contra hnone
  -- each element fails from some number on, so that all fail from the greatest of these on
  have hfail : ∀ m : List α, m ⊆ l → ∃ n, ∀ a ∈ m, ¬ p a n := by
    intro m hm
    induction m with
    | nil => exact ⟨0, fun a ha => absurd ha List.not_mem_nil⟩
    | cons a m ih =>
      rw [List.cons_subset] at hm
      obtain ⟨n, hn⟩ := ih hm.2
      obtain ⟨k, hk⟩ : ∃ k, ¬ p a k := by
        by_contra hall
        exact hnone ⟨a, hm.1, fun k => by_contra fun hk => hall ⟨k, hk⟩⟩
      refine ⟨max n k, fun b hb hp => ?_⟩
      rcases List.mem_cons.mp hb with rfl | hb
      · exact hk (anti _ _ _ (Nat.le_max_right n k) hp)
      · exact hn b hb (anti _ _ _ (Nat.le_max_left n k) hp)
  obtain ⟨n, hn⟩ := hfail l (List.Subset.refl l)
  obtain ⟨a, ha, hp⟩ := h n
  exact hn a ha hp

/-- The terminal ahead can follow a nonterminal when the start symbol derives a form in which it does. -/
theorem FollowSets.has_headD_of_derives {g : Grammar} (wf : g.WellFormed) {before : List Symbol}
    {n : Nonterminal} {rest : List Terminal}
    (h : Derives g.Produces [.nonterminal g.start] (before ++ .nonterminal n :: rest.map .terminal)) :
    (Tables.ofGrammar g).follow.Has n (rest.headD .endOfInput) := by
  have hexpands := h.mono (q := g.Expands) fun _ _ => Or.inl
  cases rest with
  | nil => exact has_endOfInput_of_derives wf hexpands
  | cons x rest => exact has_of_derives wf hexpands

namespace Tables

variable {g : Grammar}

/-- The parser comes to a configuration in which it stops. -/
def Halts (t : Tables) (word : List Terminal) : Prop :=
  ∃ n rules c, t.Reaches (.initial word) n rules c ∧ t.Stops c

/-! ## Runs on other input -/

/-- A shift is made whatever stands behind the terminal that is shifted. -/
theorem step_eq_shifted_of_input_eq {t : Tables} {c d : Configuration} (h : t.step c = .shifted d)
    {x : Terminal} {rest : List Terminal} (hinput : c.input = x :: rest) (other : List Terminal) :
    t.step ⟨c.states, x :: other⟩ = .shifted ⟨d.states, other⟩ := by
  obtain ⟨next, haction, rfl⟩ := step_eq_shifted.mp h
  refine step_eq_shifted.mpr ⟨next, ?_, rfl⟩
  rw [← haction, Configuration.lookahead, Configuration.lookahead, hinput]
  rfl

namespace Reaches

variable {c d : Configuration} {n : Nat} {rules : List Nat}

/-- **A run can be replayed with another rest** behind the terminals that were read, when the start
symbol derives the symbols on the stack followed by that rest. -/
theorem replay (wf : g.WellFormed) (hc : (ofGrammar g).table.isConsistent = true)
    {word : List Terminal} (h : (ofGrammar g).Reaches (.initial word) n rules c)
    {symbols : List Symbol} (hpath : (Automaton.ofGrammar g).Path c.states symbols)
    {read rest : List Terminal} (hread : word = read ++ c.input)
    (hderives : Derives g.Produces [.nonterminal g.start] (symbols.reverse ++ rest.map .terminal)) :
    (ofGrammar g).Reaches (.initial (read ++ rest)) n rules ⟨c.states, rest⟩ := by
  induction h generalizing symbols read rest with
  | refl =>
    -- nothing was read
    obtain rfl : read = [] := List.append_left_eq_self.mp hread.symm
    exact .refl _
  | @shift d e n rules hrun hstep ih =>
    -- the terminal that was shifted is now ahead of the other rest
    obtain ⟨below, hbelow, -⟩ := exists_path_of_reaches wf hrun
    obtain ⟨s, x, next, hs, hedge, hinput, hstates⟩ := exists_edge_of_shifted wf hstep
    rw [hstates] at hpath ⊢
    obtain rfl := (hbelow.push hs hedge).symbols_unique wf hpath
    obtain ⟨front, hfront⟩ := hrun.suffix
    change front ++ d.input = word at hfront
    obtain rfl : read = front ++ [x] := by
      refine List.append_cancel_right (hread.symm.trans ?_)
      rw [← hfront, hinput, List.append_assoc, List.singleton_append]
    have hbefore : Derives g.Produces [.nonterminal g.start]
        (below.reverse ++ (x :: rest).map .terminal) := by
      simpa using hderives
    have hreplay := ih hbelow hfront.symm hbefore
    rw [List.append_assoc, List.singleton_append, ← hstates]
    exact hreplay.shift (step_eq_shifted_of_input_eq hstep hinput rest)
  | @reduce d e n rule rules hrun hstep ih =>
    -- the head on the stack derives the body, and the new terminal ahead can follow it
    obtain ⟨full, hfull, -⟩ := exists_path_of_reaches wf hrun
    obtain ⟨r, below, hzero, hr, hbody, hpath', hinput⟩ := exists_body_of_reduced wf hfull hstep
    obtain rfl := hpath'.symbols_unique wf hpath
    rw [List.reverse_cons, List.append_assoc, List.singleton_append] at hderives
    have hbefore : Derives g.Produces [.nonterminal g.start]
        (full.reverse ++ rest.map .terminal) := by
      rw [hbody]
      exact hderives.tail (.of_rule _ _ ⟨r, wf.mem_inputRules hzero hr, rfl, rfl⟩)
    have hreplay := ih hfull (hinput ▸ hread) hbefore
    obtain ⟨haction, r', top, rest', next, hr', hdrop, hgoto, rfl⟩ := step_eq_reduced.mp hstep
    refine hreplay.reduce (step_eq_reduced.mpr ⟨?_, r', top, rest', next, hr', hdrop, hgoto, rfl⟩)
    obtain ⟨s, hs, hmem⟩ := ParseTable.mem_candidates_of_action? haction
    obtain ⟨-, r'', hr'', -, hitem⟩ := (mem_candidates_reduce wf hs).mp hmem
    obtain rfl : r = r'' := Option.some.inj (hr.symm.trans hr'')
    refine ParseTable.action?_of_isConsistent hc hs ((mem_candidates_reduce wf hs).mpr ?_)
    exact ⟨hzero, r, hr, FollowSets.has_headD_of_derives wf hderives, hitem⟩

/-- **A run that leaves a part of the input alone** only sees which terminal this begins with. -/
theorem exists_of_headD_eq (wf : g.WellFormed) (h : (ofGrammar g).Reaches c n rules d)
    {front rest other : List Terminal} (hc : c.input = front ++ rest) (hd : rest <:+ d.input)
    (hhead : rest.headD .endOfInput = other.headD .endOfInput) :
    ∃ front', d.input = front' ++ rest ∧
      (ofGrammar g).Reaches ⟨c.states, front ++ other⟩ n rules ⟨d.states, front' ++ other⟩ := by
  induction h with
  | refl => exact ⟨front, hc, .refl _⟩
  | @shift d e n rules _ hstep ih =>
    obtain ⟨-, x, -, -, -, hinput, -⟩ := exists_edge_of_shifted wf hstep
    obtain ⟨front', hfront, hrun⟩ := ih (hinput ▸ hd.trans (List.suffix_cons x e.input))
    -- the terminal that is shifted stands before the part that is left alone
    cases front' with
    | nil =>
      have hlength := hd.length_le
      rw [List.nil_append] at hfront
      rw [← hfront, hinput, List.length_cons] at hlength
      omega
    | cons y front' =>
      obtain ⟨rfl, htail⟩ := List.cons.inj (hinput.symm.trans hfront)
      exact ⟨front', htail,
        hrun.shift (step_eq_shifted_of_input_eq hstep hinput (front' ++ other))⟩
  | @reduce d e n rule rules _ hstep ih =>
    obtain ⟨haction, r, top, below, next, hr, hdrop, hgoto, rfl⟩ := step_eq_reduced.mp hstep
    obtain ⟨front', hfront, hrun⟩ := ih hd
    refine ⟨front', hfront, hrun.reduce (step_eq_reduced.mpr
      ⟨?_, r, top, below, next, hr, hdrop, hgoto, rfl⟩)⟩
    rw [← haction, Configuration.lookahead, Configuration.lookahead, hfront]
    cases front' with
    | nil => rw [List.nil_append, List.nil_append, hhead]; rfl
    | cons y front' => rfl

end Reaches

/-! ## Endless runs -/

/-- Some rest with a given first terminal makes a word of the language together with what is read, and
the parser makes a number of steps on that word without reading further. -/
def Lasts (g : Grammar) (read : List Terminal) (ahead : Terminal) (n : Nat) : Prop :=
  ∃ rest : List Terminal, rest.headD .endOfInput = ahead ∧
    Derives g.Produces [.nonterminal g.start] ((read ++ rest).map .terminal) ∧
    ∃ rules c, (ofGrammar g).Reaches (.initial (read ++ rest)) n rules c ∧ rest <:+ c.input

/-- A run that lasts for some steps lasts for fewer. -/
theorem Lasts.anti {read : List Terminal} {ahead : Terminal} {m n : Nat} (hmn : m ≤ n)
    (h : Lasts g read ahead n) : Lasts g read ahead m := by
  obtain ⟨rest, hhead, hderives, rules, c, hrun, hrest⟩ := h
  obtain ⟨k, rfl⟩ := Nat.exists_eq_add_of_le hmn
  obtain ⟨d, first, last, hfirst, hlast, -⟩ := hrun.split
  exact ⟨rest, hhead, hderives, first, d, hfirst, hrest.trans hlast.suffix⟩

/-- **No run lasts for ever:** the word is accepted after some steps, and all words that go on with the
same terminal make the parser take the same steps as far as they do not read it. -/
theorem not_forall_lasts (wf : g.WellFormed) (hc : (ofGrammar g).table.isConsistent = true)
    (read : List Terminal) (ahead : Terminal) : ¬ ∀ n, Lasts g read ahead n := by
  intro h
  obtain ⟨rest, hhead, hderives, -⟩ := h 0
  obtain ⟨tree, hvalid, hroot, hword⟩ := ParseTree.exists_tree hderives
  obtain ⟨_, ⟨n, c, hrun, haccepted⟩, -⟩ := accepts_of_tree wf hc hvalid hroot
  rw [hword] at hrun
  -- a longer run on another word is also one on this word
  obtain ⟨other, hhead', -, rules, d, hrun', hother⟩ := h (n + 1)
  obtain ⟨front, -, hlong⟩ := hrun'.exists_of_headD_eq wf rfl hother (hhead'.trans hhead.symm)
  have hle := hrun.le_of_stops (Or.inl haccepted) hlong
  omega

/-- Each configuration that a run comes to is one on the way to acceptance. -/
theorem exists_lasts (wf : g.WellFormed) (hc : (ofGrammar g).table.isConsistent = true)
    (hproductive : ∀ n, g.IsReachable n → g.IsProductive n) {word : List Terminal} {n : Nat}
    {rules : List Nat} {c : Configuration} (h : (ofGrammar g).Reaches (.initial word) n rules c) :
    ∃ e ∈ word.inits ×ˢ g.allTerminals, Lasts g e.1 e.2 n := by
  obtain ⟨symbols, read, hpath, hread, hreads⟩ := exists_path_reads wf h
  obtain ⟨behind, hbehind⟩ := hpath.exists_derives wf
  -- what comes behind the stack in a derived form derives a word
  obtain ⟨rest, hrest⟩ := Grammar.exists_derives_word fun n hn =>
    hproductive n (Grammar.isReachable_of_derives hbehind (List.mem_append_right _ hn))
  have hstack := hbehind.trans ((Derives.refl symbols.reverse).append hrest)
  have hderives : Derives g.Produces [.nonterminal g.start] ((read ++ rest).map .terminal) := by
    rw [List.map_append]
    exact hbehind.trans (hreads.append hrest)
  have hreplay := h.replay wf hc hpath hread hstack
  refine ⟨(read, rest.headD .endOfInput), List.mem_product.mpr ⟨?_, ?_⟩, rest, rfl, hderives,
    rules, _, hreplay, List.suffix_refl _⟩
  · exact (List.mem_inits _ _).mpr ⟨c.input, hread.symm⟩
  · cases rest with
    | nil => exact Grammar.mem_allTerminals.mpr wf.endOfInput_lt
    | cons x rest =>
      have hsymbols := wf.hasSymbol_of_derives hderives fun y hy => by
        rw [List.mem_singleton.mp hy]
        exact wf.hasSymbol_start
      exact Grammar.mem_allTerminals.mpr (hsymbols (.terminal x) (by simp)).2

/-- A parser that does not halt goes on for any number of steps, as it does not get stuck. -/
theorem exists_reaches_of_not_halts (wf : g.WellFormed) {word : List Terminal}
    (h : ¬ (ofGrammar g).Halts word) (n : Nat) :
    ∃ rules c, (ofGrammar g).Reaches (.initial word) n rules c := by
  induction n with
  | zero => exact ⟨[], _, .refl _⟩
  | succ n ih =>
    obtain ⟨rules, c, hrun⟩ := ih
    obtain ⟨symbols, hpath, -⟩ := exists_path_of_reaches wf hrun
    rcases step_cases wf hpath with ⟨d, hstep⟩ | ⟨rule, d, hstep⟩ | haccept | hnone
    · exact ⟨_, d, hrun.shift hstep⟩
    · exact ⟨_, d, hrun.reduce hstep⟩
    · exact absurd ⟨n, rules, c, hrun, Or.inl (step_eq_accepted.mpr haccept)⟩ h
    · exact absurd ⟨n, rules, c, hrun, Or.inr (step_eq_rejected.mpr hnone)⟩ h

end Tables

/-! ## Rule lists -/

/-- Pairs of brackets in one another, with a nonterminal that derives no word and is not reached. -/
def nestedRules : List RuleDef := [⟨"S", ["(", "S", ")"]⟩, ⟨"S", []⟩, ⟨"X", ["X"]⟩]

/-- The rules by number. -/
theorem ofDefs_nestedRules : Grammar.ofDefs nestedRules =
    .ofNames ["$", "(", ")"] ["", "S", "X"] (by decide) (by decide)
      [⟨⟨1⟩, #[.terminal ⟨1⟩, .nonterminal ⟨1⟩, .terminal ⟨2⟩]⟩, ⟨⟨1⟩, #[]⟩,
        ⟨⟨2⟩, #[.nonterminal ⟨2⟩]⟩] := by rfl

/-- Every reachable nonterminal of the nested rules derives a word. -/
theorem isProductive_of_isReachable_nestedRules {g : Grammar}
    (h : g.SameNumbers (.ofDefs nestedRules)) (n : Nonterminal) (hn : g.IsReachable n) :
    g.IsProductive n := by
  have hrules : g.inputRules = [⟨⟨1⟩, #[.terminal ⟨1⟩, .nonterminal ⟨1⟩, .terminal ⟨2⟩]⟩, ⟨⟨1⟩, #[]⟩,
      ⟨⟨2⟩, #[.nonterminal ⟨2⟩]⟩] := h.inputRules
  -- only the start symbol is reached
  have hone : n = ⟨1⟩ := by
    induction hn with
    | start => exact h.start
    | rule _ hr hmem ih =>
      rw [hrules] at hr
      fin_cases hr <;> simp_all
  subst hone
  refine ⟨[], Derives.of_production ⟨⟨⟨1⟩, #[]⟩, ?_, rfl, rfl⟩⟩
  simp [hrules]

/-- The start symbol derives no word, and behind the nonterminal that vanishes comes a terminal only in
a rule that is not reached. -/
def loopRules : List RuleDef := [⟨"S", ["A", "S", "b"]⟩, ⟨"A", []⟩, ⟨"X", ["A", "x"]⟩]

/-- The rules by number. -/
theorem ofDefs_loopRules : Grammar.ofDefs loopRules =
    .ofNames ["$", "b", "x"] ["", "S", "A", "X"] (by decide) (by decide)
      [⟨⟨1⟩, #[.nonterminal ⟨2⟩, .nonterminal ⟨1⟩, .terminal ⟨1⟩]⟩, ⟨⟨2⟩, #[]⟩,
        ⟨⟨3⟩, #[.nonterminal ⟨2⟩, .terminal ⟨2⟩]⟩] := by rfl

namespace Tables

/-! ## Halting -/

/-- **With a consistent table the parser halts on every input** when all nonterminals that can be reached
from the start symbol derive words. -/
theorem halts_of_isConsistent {defs : List RuleDef} {t : Tables} (h : ofRules defs = .ok t)
    (hc : t.table.isConsistent = true)
    (hproductive : ∀ n, t.grammar.IsReachable n → t.grammar.IsProductive n)
    (word : List Terminal) : t.Halts word := by
  obtain ⟨g, hg, rfl⟩ := ofRules_eq_ok.mp h
  have wf := Grammar.wellFormed_of_augment hg
  by_contra hhalts
  have hlasts : ∀ n, ∃ e ∈ word.inits ×ˢ g.allTerminals, Lasts g e.1 e.2 n := fun n => by
    obtain ⟨rules, c, hrun⟩ := exists_reaches_of_not_halts wf hhalts n
    exact exists_lasts wf hc hproductive hrun
  obtain ⟨⟨read, ahead⟩, -, hforever⟩ :=
    exists_forall_of_antitone (p := fun (e : List Terminal × Terminal) n => Lasts g e.1 e.2 n)
      (fun _ _ _ hmn hn => hn.anti hmn) hlasts
  exact not_forall_lasts wf hc read ahead hforever

/-- A closing bracket that nothing opens is read to no end, but the parser halts. -/
theorem halts_of_isConsistent_nestedRules : ∃ t, ofRules nestedRules = .ok t ∧
    t.table.isConsistent = true ∧
    (∀ n, t.grammar.IsReachable n → t.grammar.IsProductive n) ∧ t.Halts [⟨2⟩, ⟨1⟩] := by
  obtain ⟨t, ht, hsame, -, htable, -⟩ := exists_of_valid nestedRules (by decide)
    (by unfold RuleDef.IsValid; decide) (by decide) (by decide)
  have hconsistent : (listed (.ofDefs nestedRules)).table.isConsistent = true := by
    rw [ofDefs_nestedRules]
    cbv
  have hc : t.table.isConsistent = true := htable ▸ hconsistent
  have hproductive := isProductive_of_isReachable_nestedRules hsame
  exact ⟨t, ht, hc, hproductive, halts_of_isConsistent ht hc hproductive _⟩

/-- **The parser need not halt,** though the tables are consistent and all nonterminals have rules. -/
theorem not_halts_loopRules : ∃ t, ofRules loopRules = .ok t ∧
    t.table.isConsistent = true ∧ t.grammar.unresolved = [] ∧ ¬ t.Halts [⟨2⟩] := by
  obtain ⟨t, ht, hsame, -, htable, -⟩ := exists_of_valid loopRules (by decide)
    (by unfold RuleDef.IsValid; decide) (by decide) (by decide)
  rw [ofDefs_loopRules] at hsame htable
  have hconsistent : t.table.isConsistent = true := by
    rw [htable]
    cbv
  have hunresolved : t.grammar.unresolved = [] := by
    rw [hsame.unresolved]
    cbv
  refine ⟨t, ht, hconsistent, hunresolved, ?_⟩
  -- the empty body is reduced in state `0` and again in the state behind its head
  have hfirst : t.table.action? 0 ⟨2⟩ = some (.reduce 2) := by
    rw [htable]
    cbv
  have hagain : t.table.action? 2 ⟨2⟩ = some (.reduce 2) := by
    rw [htable]
    cbv
  have hgoto : t.table.goto? 0 ⟨2⟩ = some 2 := by
    rw [htable]
    cbv
  have hgoto' : t.table.goto? 2 ⟨2⟩ = some 2 := by
    rw [htable]
    cbv
  have hrule : t.grammar.rule? 2 = some ⟨⟨2⟩, #[]⟩ := by
    rw [hsame.rule?]
    rfl
  have hrun : ∀ n, ∃ rules, t.Reaches (.initial [⟨2⟩]) n rules ⟨List.replicate n 2 ++ [0], [⟨2⟩]⟩ := by
    intro n
    induction n with
    | zero => exact ⟨[], .refl _⟩
    | succ n ih =>
      obtain ⟨rules, hrun⟩ := ih
      refine ⟨2 :: rules, hrun.reduce (step_eq_reduced.mpr ⟨?_, ?_⟩)⟩
      · cases n with
        | zero => exact hfirst
        | succ n => exact hagain
      · cases n with
        | zero => exact ⟨_, 0, [], 2, hrule, rfl, hgoto, rfl⟩
        | succ n => exact ⟨_, 2, List.replicate n 2 ++ [0], 2, hrule, rfl, hgoto', rfl⟩
  rintro ⟨n, rules, c, hhalts, hstops⟩
  obtain ⟨more, hmore⟩ := hrun (n + 1)
  have hle := hhalts.le_of_stops hstops hmore
  omega

end Tables

end ShiftReduce
