import ShiftReduce.Proofs.Completeness

/-! # FIRST of sequences

`FIRST` of a sequence of symbols is exactly what the sequence derives, also when it is no body of a rule
(`FirstSets.exact_ofSequence`). The entry of a nonterminal then holds what `FIRST` of its bodies holds
and nothing else, since a derivation from a nonterminal begins with one of its bodies
(`Derives.cases_singleton`). A pass takes a body symbol by symbol and adds to what it has found so far
(`FirstSets.walk`): it finds `FIRST` of the body, whatever the sets hold at that time
(`FirstSets.walk_eq`). -/

namespace ShiftReduce

/-! ## The first step of a derivation -/

/-- What replaces a nonterminal that stands alone is one of its bodies. -/
theorem Replaces.of_singleton {p : Productions} {n : Nonterminal} {form : List Symbol}
    (h : Replaces p [.nonterminal n] form) : p n form := by
  generalize halone : [Symbol.nonterminal n] = first at h
  obtain ⟨before, after, hbody⟩ := h
  cases before with
  | nil =>
    obtain ⟨hn, rfl⟩ := List.cons.inj halone
    cases hn
    simpa using hbody
  | cons x before => simp at halone

/-- A derivation from a nonterminal begins with one of its bodies, unless it has no steps. -/
theorem Derives.cases_singleton {p : Productions} {n : Nonterminal} {form : List Symbol}
    (h : Derives p [.nonterminal n] form) :
    form = [.nonterminal n] ∨ ∃ body, p n body ∧ Derives p body form := by
  induction h with
  | refl => exact Or.inl rfl
  | tail _ step ih =>
    rcases ih with rfl | ⟨body, hbody, hform⟩
    · exact Or.inr ⟨_, step.of_singleton, .refl _⟩
    · exact Or.inr ⟨body, hbody, hform.tail step⟩

/-- A form that a nonterminal with rules derives, and that is not the nonterminal itself, comes from the
body of one of its rules. -/
theorem Grammar.exists_body_of_derives {g : Grammar} {n : Nonterminal}
    (hn : ∃ r ∈ g.inputRules, r.left = n) (wf : g.WellFormed) {form : List Symbol}
    (h : Derives g.Expands [.nonterminal n] form) (hform : form ≠ [.nonterminal n]) :
    ∃ r ∈ g.inputRules, r.left = n ∧ Derives g.Expands r.right.toList form := by
  obtain ⟨body, ⟨r, hr, hleft, rfl⟩ | ⟨hundefined, -⟩, hbody⟩ := h.cases_singleton.resolve_left hform
  · exact ⟨r, hr, hleft, hbody⟩
  · rw [wf.isDefined_iff.mpr (Or.inr hn)] at hundefined
    cases hundefined

/-! ## The walk over a body -/

namespace FirstSets

/-- The walk of a pass over a body, with what is found so far: it takes up what each symbol begins with
and ends behind the first symbol that does not vanish. A nonterminal without an entry is passed over. -/
def walk (s : FirstSets) (added : TerminalSet) : List Symbol → First
  | [] => ⟨added, true⟩
  | .terminal t :: _ => ⟨added.insert t, false⟩
  | .nonterminal n :: rest =>
    match s.get? n with
    | none => s.walk added rest
    | some f =>
      if f.nullable then s.walk (added ∪ f.terminals) rest else ⟨added ∪ f.terminals, false⟩

/-- **The walk adds `FIRST` of the body to what was found before.** -/
theorem walk_eq (s : FirstSets) (added : TerminalSet) (form : List Symbol) :
    s.walk added form =
      ⟨added ∪ (s.ofSequence form).terminals, (s.ofSequence form).nullable⟩ := by
  induction form generalizing added with
  | nil =>
    rw [walk, ofSequence_nil]
    exact First.ext (fun t => by simp) Iff.rfl
  | cons x form ih =>
    cases x with
    | terminal t =>
      rw [walk, ofSequence]
      exact First.ext (fun t' => by simp [or_comm]) Iff.rfl
    | nonterminal n =>
      rw [walk, ofSequence]
      cases s.get? n with
      | none => exact ih added
      | some f =>
        dsimp only
        by_cases hf : f.nullable = true
        · rw [if_pos hf, if_pos hf, ih]
          exact First.ext (fun t => by simp [or_assoc]) Iff.rfl
        · rw [if_neg hf, if_neg hf, ← Bool.eq_false_of_not_eq_true hf]

/-- Without anything found before, the walk finds what the sequence begins with. -/
theorem walk_empty (s : FirstSets) (form : List Symbol) : s.walk ∅ form = s.ofSequence form := by
  rw [walk_eq]
  exact First.ext (fun t => by simp) Iff.rfl

/-! ## Entries -/

variable {g : Grammar}

/-- **The entry of a nonterminal holds what `FIRST` of its bodies holds** and nothing else. -/
theorem exact_entry (wf : g.WellFormed) {n : Nonterminal} {f : First}
    (h : (ofGrammar g).get? n = some f) :
    (∀ t, t ∈ f.terminals ↔ ∃ r ∈ g.inputRules, r.left = n ∧
      t ∈ ((ofGrammar g).ofSequence r.right.toList).terminals) ∧
    (f.nullable = true ↔ ∃ r ∈ g.inputRules, r.left = n ∧
      ((ofGrammar g).ofSequence r.right.toList).nullable = true) := by
  have hrule := (exists_get?_ofGrammar_iff wf).mp ⟨f, h⟩
  obtain ⟨hbegins, hvanishes⟩ := exact_of_get? wf h
  -- what a body holds is in the entry, which is saturated
  have hbody : ∀ r ∈ g.inputRules, r.left = n → (ofGrammar g).ofSequence r.right.toList ≤ f := by
    rintro r hr rfl
    have hclosed := ofGrammar_closed wf hr
    rwa [ofSymbol_nonterminal, h] at hclosed
  constructor
  · intro t
    refine ⟨fun ht => ?_, fun ⟨r, hr, hleft, ht⟩ => (hbody r hr hleft).1 t ht⟩
    obtain ⟨rest, hrest⟩ := (hbegins t).mp ht
    obtain ⟨r, hr, hleft, hderives⟩ := Grammar.exists_body_of_derives hrule wf hrest (by simp)
    exact ⟨r, hr, hleft, ((exact_ofSequence wf (wf.freshStart_not_mem hr)).1 t).mpr ⟨rest, hderives⟩⟩
  · refine ⟨fun hn => ?_, fun ⟨r, hr, hleft, hn⟩ => (hbody r hr hleft).2 hn⟩
    obtain ⟨r, hr, hleft, hderives⟩ :=
      Grammar.exists_body_of_derives hrule wf (hvanishes.mp hn) (by simp)
    exact ⟨r, hr, hleft, (exact_ofSequence wf (wf.freshStart_not_mem hr)).2.mpr hderives⟩

/-- What `FIRST` sets of a grammar say of sequences, and what their entries are. -/
structure IsExact (g : Grammar) (s : FirstSets) : Prop where
  /-- a terminal is in `FIRST` of a sequence just when the sequence derives a form that begins with it -/
  begins : ∀ form, .nonterminal .freshStart ∉ form → ∀ t, t ∈ (s.ofSequence form).terminals ↔
    ∃ rest, Derives g.Expands form (.terminal t :: rest)
  /-- the flag of a sequence is set just when the sequence derives the empty form -/
  vanishes : ∀ form, .nonterminal .freshStart ∉ form →
    ((s.ofSequence form).nullable = true ↔ Derives g.Expands form [])
  /-- the entry of a nonterminal with rules is the union of `FIRST` of their bodies -/
  entry : ∀ n, (∃ r ∈ g.inputRules, r.left = n) → ∃ f, s.get? n = some f ∧ ∀ t, t ∈ f.terminals ↔
    ∃ r ∈ g.inputRules, r.left = n ∧ t ∈ (s.ofSequence r.right.toList).terminals
  /-- a nonterminal with rules is nullable just when the flag of one of their bodies is set -/
  nullable : ∀ n, (∃ r ∈ g.inputRules, r.left = n) → (s.isNullable n = true ↔
    ∃ r ∈ g.inputRules, r.left = n ∧ (s.ofSequence r.right.toList).nullable = true)
  /-- the walk of a pass finds `FIRST` of what it is taken over -/
  walk : ∀ form, s.walk ∅ form = s.ofSequence form
  /-- a further walk over a body adds nothing to the entry of its head -/
  fixed : ∀ r ∈ g.inputRules,
    s.entries.modify r.left (·.join (s.walk ∅ r.right.toList)) = s.entries

/-- **`FIRST` of sequences is exact** for every rule list, and the entries are what the bodies give. -/
theorem isExact_of_augment {defs : List RuleDef} {g : Grammar} (h : Grammar.augment defs = .ok g) :
    (ofGrammar g).IsExact g := by
  have wf := Grammar.wellFormed_of_augment h
  constructor
  case begins => exact fun form hform => (exact_ofSequence wf hform).1
  case vanishes => exact fun form hform => (exact_ofSequence wf hform).2
  case entry =>
    intro n hn
    obtain ⟨f, hf⟩ := (exists_get?_ofGrammar_iff wf).mpr hn
    exact ⟨f, hf, (exact_entry wf hf).1⟩
  case nullable =>
    intro n hn
    obtain ⟨f, hf⟩ := (exists_get?_ofGrammar_iff wf).mpr hn
    rw [isNullable, hf, Option.any_some]
    exact (exact_entry wf hf).2
  case walk => exact walk_empty _
  case fixed =>
    intro r hr
    rw [walk_empty]
    exact congrArg FirstSets.entries (addRule_ofGrammar wf hr)

/-- A nonterminal without rules in front of one that can vanish, in the grammar of a rule list. -/
theorem isExact_of_augment_starRules : ∃ g, Grammar.augment starRules = .ok g ∧
    (ofGrammar g).IsExact g ∧
    (ofGrammar g).ofSequence [.nonterminal ⟨2⟩, .nonterminal ⟨1⟩] = ⟨{⟨1⟩}, true⟩ := by
  obtain ⟨g, hg⟩ : ∃ g, Grammar.augment starRules = .ok g :=
    Grammar.exists_augment (by decide) (by unfold RuleDef.IsValid; decide) (by decide) (by decide)
  have hsame := Grammar.sameNumbers_ofDefs hg
  rw [ofDefs_starRules] at hsame
  refine ⟨g, hg, isExact_of_augment hg, ?_⟩
  rw [hsame.firstSets]
  cbv

end FirstSets

end ShiftReduce
