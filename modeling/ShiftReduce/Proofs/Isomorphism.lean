import ShiftReduce.Proofs.FollowSets
import ShiftReduce.Proofs.Renumbering

/-! # One grammar under two numberings

When a grammar is another one under other numbers (`Renumbering.IsIso`), the forms that it derives are
those of the other one, symbol by symbol (`Renumbering.IsIso.derives_iff`). So the `FIRST` and `FOLLOW`
sets are the same under these numbers, although they are found by other passes in another order
(`Renumbering.IsIso.first_eq`, `Renumbering.IsIso.follow_eq`). -/

namespace ShiftReduce

/-- Entries that exist together and agree where they exist are the same. -/
theorem eq_map_of_exists_iff {α β : Type} {a : Option α} {b : Option β} {f : α → β}
    (hexists : (∃ y, b = some y) ↔ ∃ x, a = some x)
    (hagree : ∀ x y, a = some x → b = some y → y = f x) : b = a.map f := by
  cases a with
  | none =>
    rw [Option.map_none, Option.eq_none_iff_forall_ne_some]
    intro y hy
    obtain ⟨x, hx⟩ := hexists.mp ⟨y, hy⟩
    cases hx
  | some x =>
    obtain ⟨y, hy⟩ := hexists.mpr ⟨x, rfl⟩
    rw [hy, hagree x y rfl hy, Option.map_some]

/-! ## Derivations under other numbers -/

section Derivations

variable {ρ : Renumbering} {p p' : Productions}

/-- Productions replace a nonterminal by the other numbers of what they replaced it by before. -/
def Renumbering.Carries (ρ : Renumbering) (p p' : Productions) : Prop :=
  ∀ n body', p' (ρ.nonterminal n) body' ↔ ∃ body, p n body ∧ body.map ρ.symbol = body'

/-- One step is taken under other numbers exactly when it is taken before. -/
theorem Replaces.map_iff (h : ρ.Carries p p') {a b' : List Symbol} :
    Replaces p' (a.map ρ.symbol) b' ↔ ∃ b, Replaces p a b ∧ b.map ρ.symbol = b' := by
  constructor
  · generalize hform : a.map ρ.symbol = a'
    rintro @⟨n', body', before', after', hp'⟩
    obtain ⟨before, rest, rfl, rfl, hrest⟩ := List.map_eq_append_iff.mp hform
    obtain ⟨x, after, rfl, hx, rfl⟩ := List.map_eq_cons_iff.mp hrest
    obtain ⟨n, rfl, rfl⟩ := Renumbering.symbol_eq_nonterminal.mp hx
    obtain ⟨body, hp, rfl⟩ := (h n body').mp hp'
    exact ⟨_, .of_rule before after hp, by simp⟩
  · rintro ⟨_, @⟨n, body, before, after, hp⟩, rfl⟩
    have hp' : p' (ρ.nonterminal n) (body.map ρ.symbol) := (h n _).mpr ⟨body, hp, rfl⟩
    simpa using Replaces.of_rule (before.map ρ.symbol) (after.map ρ.symbol) hp'

/-- **What is derived under other numbers is what is derived before.** -/
theorem Derives.map_iff (h : ρ.Carries p p') {a b' : List Symbol} :
    Derives p' (a.map ρ.symbol) b' ↔ ∃ b, Derives p a b ∧ b.map ρ.symbol = b' := by
  constructor
  · intro hderives
    induction hderives with
    | refl => exact ⟨a, .refl a, rfl⟩
    | tail _ hstep ih =>
      obtain ⟨c, hc, rfl⟩ := ih
      obtain ⟨b, hb, rfl⟩ := (Replaces.map_iff h).mp hstep
      exact ⟨b, hc.tail hb, rfl⟩
  · rintro ⟨b, hderives, rfl⟩
    induction hderives with
    | refl => exact .refl _
    | tail _ hstep ih => exact ih.tail ((Replaces.map_iff h).mpr ⟨_, hstep, rfl⟩)

end Derivations

/-! ## The same grammar -/

namespace Renumbering

/-- A grammar is another one under other numbers. Rules that come again can have other places and come
more or less often. -/
structure IsIso (ρ : Renumbering) (g g' : Grammar) : Prop extends ρ.Embeds g g' fun _ => True where
  /-- the end of the input is the end of the input -/
  endOfInput : ρ.terminal .endOfInput = .endOfInput
  /-- its nonterminals are the other numbers of the nonterminals -/
  mem_allNonterminals : ∀ n', n' ∈ g'.allNonterminals ↔
    ∃ n ∈ g.allNonterminals, ρ.nonterminal n = n'

/-- A set of terminals by their other numbers. -/
def terminals (ρ : Renumbering) (s : TerminalSet) : TerminalSet := .ofList (s.toList.map ρ.terminal)

/-- What words begin with, by other numbers. -/
def first (ρ : Renumbering) (f : First) : First := ⟨ρ.terminals f.terminals, f.nullable⟩

/-- What follows a nonterminal follows it under other numbers. -/
def SameFollow (ρ : Renumbering) (follow follow' : FollowSets) : Prop :=
  ∀ n t', follow'.Has (ρ.nonterminal n) t' ↔ ∃ t, follow.Has n t ∧ ρ.terminal t = t'

/-- A renumbered set of terminals has the renumbered terminals. -/
@[simp] theorem mem_terminals {ρ : Renumbering} {s : TerminalSet} {t' : Terminal} :
    t' ∈ ρ.terminals s ↔ ∃ t ∈ s, ρ.terminal t = t' := by
  unfold terminals
  rw [SymbolSet.mem_ofList, List.mem_map]
  simp only [SymbolSet.mem_toList]

namespace IsIso

variable {ρ : Renumbering} {g g' : Grammar}

/-! ### Rules -/

/-- A renumbered input rule is an input rule. -/
theorem ofRule_mem_inputRules (h : ρ.IsIso g g') {r : Rule} (hr : r ∈ g.inputRules) :
    ρ.ofRule r ∈ g'.inputRules := by
  obtain ⟨k, hk⟩ := Grammar.exists_usesRule (List.mem_of_mem_drop hr)
  have hr' := Grammar.mem_rules_of_rule? (h.usesRule k r hk trivial).1
  refine (h.wf'.eq_or_mem_inputRules hr').resolve_left fun heq => ?_
  -- the head is not the fresh start symbol, and stays different from it
  refine (h.wf.hasSymbol_left r hr).1 (ρ.nonterminal_injective ?_)
  exact (congrArg Rule.left heq).trans h.freshStart.symm

/-- An input rule of the second grammar is renumbered from one of the first. -/
theorem exists_inputRule (h : ρ.IsIso g g') {n : Nonterminal} {r' : Rule}
    (hr' : r' ∈ g'.inputRules) (hleft : r'.left = ρ.nonterminal n) :
    ∃ r ∈ g.inputRules, r.left = n ∧ ρ.ofRule r = r' := by
  obtain ⟨r, hr, rfl⟩ := h.exists_rule r' (List.mem_of_mem_drop hr') n trivial hleft
  refine ⟨r, (h.wf.eq_or_mem_inputRules hr).resolve_left ?_, ρ.nonterminal_injective hleft, rfl⟩
  rintro rfl
  exact (h.wf'.hasSymbol_left _ hr').1 h.freshStart

/-- A nonterminal has input rules in both grammars or in neither. -/
theorem exists_inputRule_iff (h : ρ.IsIso g g') {n : Nonterminal} :
    (∃ r' ∈ g'.inputRules, r'.left = ρ.nonterminal n) ↔ ∃ r ∈ g.inputRules, r.left = n := by
  constructor
  · rintro ⟨r', hr', hleft⟩
    obtain ⟨r, hr, hn, -⟩ := h.exists_inputRule hr' hleft
    exact ⟨r, hr, hn⟩
  · rintro ⟨r, hr, rfl⟩
    exact ⟨_, h.ofRule_mem_inputRules hr, rfl⟩

/-- Only the fresh start is renumbered to the fresh start. -/
theorem freshStart_iff (h : ρ.IsIso g g') {n : Nonterminal} :
    ρ.nonterminal n = .freshStart ↔ n = .freshStart :=
  ⟨fun heq => ρ.nonterminal_injective (heq.trans h.freshStart.symm), fun heq => heq ▸ h.freshStart⟩

/-- Only the end of input is renumbered to the end of input. -/
theorem endOfInput_iff (h : ρ.IsIso g g') {t : Terminal} :
    ρ.terminal t = .endOfInput ↔ t = .endOfInput :=
  ⟨fun heq => ρ.terminal_injective (heq.trans h.endOfInput.symm), fun heq => heq ▸ h.endOfInput⟩

/-- A nonterminal is defined in both grammars or in neither. -/
theorem isDefined_nonterminal (h : ρ.IsIso g g') (n : Nonterminal) :
    g'.isDefined (ρ.nonterminal n) = g.isDefined n := by
  rw [Bool.eq_iff_iff, h.wf'.isDefined_iff, h.wf.isDefined_iff, h.freshStart_iff,
    h.exists_inputRule_iff]

/-! ### Derivations -/

/-- Rules are applied in one grammar as in the other. -/
theorem carries_produces (h : ρ.IsIso g g') : ρ.Carries g.Produces g'.Produces := by
  intro n body'
  constructor
  · rintro ⟨r', hr', hleft, rfl⟩
    obtain ⟨r, hr, hn, rfl⟩ := h.exists_inputRule hr' hleft
    exact ⟨_, ⟨r, hr, hn, rfl⟩, (right_ofRule r).symm⟩
  · rintro ⟨_, ⟨r, hr, rfl, rfl⟩, rfl⟩
    exact ⟨_, h.ofRule_mem_inputRules hr, rfl, right_ofRule r⟩

/-- Symbols are replaced in one grammar as in the other. -/
theorem carries_expands (h : ρ.IsIso g g') : ρ.Carries g.Expands g'.Expands := by
  intro n body'
  unfold Grammar.Expands
  rw [h.carries_produces n body', h.isDefined_nonterminal]
  constructor
  · rintro (⟨body, hbody, rfl⟩ | ⟨hundefined, rfl⟩)
    · exact ⟨body, Or.inl hbody, rfl⟩
    · exact ⟨[], Or.inr ⟨hundefined, rfl⟩, rfl⟩
  · rintro ⟨body, hbody | ⟨hundefined, rfl⟩, rfl⟩
    · exact Or.inl ⟨body, hbody, rfl⟩
    · exact Or.inr ⟨hundefined, rfl⟩

/-- **The forms that are derived are the same under other numbers.** -/
theorem derives_iff (h : ρ.IsIso g g') {a b' : List Symbol} :
    Derives g'.Expands (a.map ρ.symbol) b' ↔
      ∃ b, Derives g.Expands a b ∧ b.map ρ.symbol = b' :=
  Derives.map_iff h.carries_expands

/-- A nonterminal derives the renumbered words of its old number. -/
theorem derives_singleton_iff (h : ρ.IsIso g g') {n : Nonterminal} {b' : List Symbol} :
    Derives g'.Expands [.nonterminal (ρ.nonterminal n)] b' ↔
      ∃ b, Derives g.Expands [.nonterminal n] b ∧ b.map ρ.symbol = b' :=
  h.derives_iff (a := [.nonterminal n])

/-! ### `FIRST` sets -/

/-- What a nonterminal derives begins with the renumbered terminals. -/
theorem begins_iff (h : ρ.IsIso g g') {n : Nonterminal} {t' : Terminal} :
    g'.Begins [.nonterminal (ρ.nonterminal n)] t' ↔
      ∃ t, g.Begins [.nonterminal n] t ∧ ρ.terminal t = t' := by
  unfold Grammar.Begins
  simp only [h.derives_singleton_iff]
  constructor
  · rintro ⟨_, b, hb, hform⟩
    obtain ⟨x, rest, rfl, hx, -⟩ := List.map_eq_cons_iff.mp hform
    obtain ⟨t, rfl, ht⟩ := symbol_eq_terminal.mp hx
    exact ⟨t, ⟨rest, hb⟩, ht⟩
  · rintro ⟨t, ⟨rest, hb⟩, rfl⟩
    exact ⟨_, _, hb, rfl⟩

/-- A nonterminal derives the empty word in both grammars or in neither. -/
theorem vanishes_iff (h : ρ.IsIso g g') {n : Nonterminal} :
    g'.Vanishes [.nonterminal (ρ.nonterminal n)] ↔ g.Vanishes [.nonterminal n] := by
  unfold Grammar.Vanishes
  rw [h.derives_singleton_iff]
  constructor
  · rintro ⟨b, hb, hnil⟩
    rwa [List.map_eq_nil_iff.mp hnil] at hb
  · exact fun hb => ⟨[], hb, rfl⟩

/-- **The `FIRST` sets are the same under other numbers.** -/
theorem first_eq (h : ρ.IsIso g g') (n : Nonterminal) :
    (FirstSets.ofGrammar g').get? (ρ.nonterminal n) =
      ((FirstSets.ofGrammar g).get? n).map ρ.first := by
  refine eq_map_of_exists_iff ?_ fun f f' hf hf' => ?_
  · rw [FirstSets.exists_get?_ofGrammar_iff h.wf', FirstSets.exists_get?_ofGrammar_iff h.wf,
      h.exists_inputRule_iff]
  · obtain ⟨hmem, hnullable⟩ := FirstSets.exact_of_get? h.wf hf
    obtain ⟨hmem', hnullable'⟩ := FirstSets.exact_of_get? h.wf' hf'
    refine First.ext (fun t' => ?_) ?_
    · show _ ↔ t' ∈ ρ.terminals f.terminals
      rw [hmem', h.begins_iff, mem_terminals]
      simp only [hmem]
    · show _ ↔ f.nullable = true
      rw [hnullable', h.vanishes_iff, hnullable]

/-! ### `FOLLOW` sets -/

/-- A nonterminal stands in a derived form exactly when it stands there under the other numbers. -/
theorem derives_occurrence_iff (h : ρ.IsIso g g') {A n : Nonterminal}
    {before' after' : List Symbol} :
    Derives g'.Expands [.nonterminal (ρ.nonterminal A)]
        (before' ++ .nonterminal (ρ.nonterminal n) :: after') ↔
      ∃ before after, Derives g.Expands [.nonterminal A] (before ++ .nonterminal n :: after) ∧
        before.map ρ.symbol = before' ∧ after.map ρ.symbol = after' := by
  rw [h.derives_singleton_iff]
  constructor
  · rintro ⟨b, hb, hform⟩
    obtain ⟨before, rest, rfl, hbefore, hrest⟩ := List.map_eq_append_iff.mp hform
    obtain ⟨x, after, rfl, hx, hafter⟩ := List.map_eq_cons_iff.mp hrest
    obtain rfl : x = .nonterminal n := symbol_injective hx
    exact ⟨before, after, hb, hbefore, hafter⟩
  · rintro ⟨before, after, hb, rfl, rfl⟩
    exact ⟨_, hb, by simp⟩

/-- What follows a nonterminal is the same under other numbers. -/
theorem follows_iff (h : ρ.IsIso g g') {n : Nonterminal} {t' : Terminal} :
    g'.Follows (ρ.nonterminal n) t' ↔ ∃ t, g.Follows n t ∧ ρ.terminal t = t' := by
  unfold Grammar.Follows
  constructor
  · intro hfollows
    by_cases ht' : t' = .endOfInput
    · rw [if_pos ht', ← h.start] at hfollows
      obtain ⟨before', hb'⟩ := hfollows
      obtain ⟨before, after, hb, -, hnil⟩ := h.derives_occurrence_iff.mp hb'
      rw [List.map_eq_nil_iff.mp hnil] at hb
      refine ⟨.endOfInput, ?_, h.endOfInput.trans ht'.symm⟩
      rw [if_pos rfl]
      exact ⟨before, hb⟩
    · rw [if_neg ht'] at hfollows
      obtain ⟨A', hA', hfresh, before', after', hb'⟩ := hfollows
      obtain ⟨A, hA, rfl⟩ := (h.mem_allNonterminals A').mp hA'
      obtain ⟨before, rest, hb, -, hrest⟩ := h.derives_occurrence_iff.mp hb'
      -- the terminal is one of the other grammar, as all of the form is
      obtain ⟨x, after, rfl, hx, -⟩ := List.map_eq_cons_iff.mp hrest
      obtain ⟨t, rfl, rfl⟩ := symbol_eq_terminal.mp hx
      refine ⟨t, ?_, rfl⟩
      rw [if_neg (mt h.endOfInput_iff.mpr ht')]
      exact ⟨A, hA, mt h.freshStart_iff.mpr hfresh, before, after, hb⟩
  · rintro ⟨t, hfollows, rfl⟩
    by_cases ht : t = .endOfInput
    · rw [if_pos ht] at hfollows
      obtain ⟨before, hb⟩ := hfollows
      rw [if_pos (h.endOfInput_iff.mpr ht), ← h.start]
      exact ⟨_, h.derives_occurrence_iff.mpr ⟨before, [], hb, rfl, rfl⟩⟩
    · rw [if_neg ht] at hfollows
      obtain ⟨A, hA, hfresh, before, after, hb⟩ := hfollows
      rw [if_neg (mt h.endOfInput_iff.mp ht)]
      exact ⟨_, (h.mem_allNonterminals _).mpr ⟨A, hA, rfl⟩, mt h.freshStart_iff.mp hfresh, _, _,
        h.derives_occurrence_iff.mpr ⟨before, _, hb, rfl, rfl⟩⟩

/-- **The `FOLLOW` sets are the renumbered ones.** -/
theorem sameFollow (h : ρ.IsIso g g') :
    ρ.SameFollow (FollowSets.ofGrammar g (FirstSets.ofGrammar g))
      (FollowSets.ofGrammar g' (FirstSets.ofGrammar g')) := by
  intro n t'
  rw [FollowSets.has_ofGrammar_iff h.wf', h.follows_iff]
  simp only [FollowSets.has_ofGrammar_iff h.wf]

/-- **The `FOLLOW` sets are the same under other numbers.** -/
theorem follow_eq (h : ρ.IsIso g g') (n : Nonterminal) :
    (FollowSets.ofGrammar g' (FirstSets.ofGrammar g')).get? (ρ.nonterminal n) =
      ((FollowSets.ofGrammar g (FirstSets.ofGrammar g)).get? n).map ρ.terminals := by
  have hnumber : ρ.nonterminal n ∈ g'.allNonterminals ↔ n ∈ g.allNonterminals := by
    rw [h.mem_allNonterminals]
    exact ⟨fun ⟨m, hm, heq⟩ => ρ.nonterminal_injective heq ▸ hm, fun hn => ⟨n, hn, rfl⟩⟩
  refine eq_map_of_exists_iff ?_ fun set set' hset hset' => ?_
  · rw [FollowSets.exists_get?_ofGrammar_iff h.wf', FollowSets.exists_get?_ofGrammar_iff h.wf,
      hnumber, Ne, h.freshStart_iff]
  · refine SymbolSet.ext fun t' => ?_
    rw [← FollowSets.has_iff_mem hset', h.sameFollow n t', mem_terminals]
    simp only [FollowSets.has_iff_mem hset]

end IsIso

end Renumbering

end ShiftReduce
