import ShiftReduce.Follow
import ShiftReduce.Proofs.FirstSets
import ShiftReduce.Proofs.NumberedGrammars

/-! # The FOLLOW sets are exact

The passes end in sets that no occurrence of a nonterminal in a body changes any more. From there both
inclusions are short: what is in `FOLLOW` follows in a derived form (`ofGrammar_sound`, an invariant of
the passes), and what follows in a derived form is in `FOLLOW` (`covers_of_derives`, an induction on the
derivation). The invariant of the induction speaks of `FIRST` of all that stands behind an occurrence, not
only of its neighbour, and so no common ancestor of two neighbours has to be looked for. -/

namespace ShiftReduce

/-- An element of a list that was put together is in the one part or in the other. -/
theorem split_append {α : Type} {a b before rest : List α} {x : α}
    (h : a ++ b = before ++ x :: rest) :
    (∃ a', a = before ++ x :: a' ∧ rest = a' ++ b) ∨ (∃ b', b = b' ++ x :: rest ∧ before = a ++ b') := by
  rcases List.append_eq_append_iff.mp h with ⟨c, hbefore, hb⟩ | ⟨c, ha, hrest⟩
  · exact Or.inr ⟨c, hb, hbefore⟩
  · cases c with
    | nil => exact Or.inr ⟨[], hrest.symm, by simpa using ha.symm⟩
    | cons y c =>
      obtain ⟨rfl, rfl⟩ := List.cons.inj hrest
      exact Or.inl ⟨c, ha, rfl⟩

namespace FollowSets

variable {g : Grammar} {first : FirstSets}

/-! ## One occurrence -/

/-- What one occurrence adds to the entry of its nonterminal, when `rest` stands behind it in a body for
`left`. -/
def following (first : FirstSets) (left : Nonterminal) (rest : List Symbol) (s : FollowSets) :
    TerminalSet :=
  if (first.ofSequence rest).nullable then
    (first.ofSequence rest).terminals ∪ (s.get? left).getD ∅
  else (first.ofSequence rest).terminals

/-- Adds what one occurrence of `n` adds. -/
def addOccurrence (first : FirstSets) (left n : Nonterminal) (rest : List Symbol) (s : FollowSets) :
    FollowSets :=
  ⟨s.entries.modify n (· ∪ following first left rest s)⟩

/-- What may stand behind a nonterminal is added to it before the rest of the body is read. -/
theorem addBody_nonterminal (left n : Nonterminal) (rest : List Symbol) (s : FollowSets) :
    addBody first left s (.nonterminal n :: rest) =
      addBody first left (s.addOccurrence first left n rest) rest := rfl

/-- A terminal is passed over. -/
theorem addBody_terminal (left : Nonterminal) (t : Terminal) (rest : List Symbol) (s : FollowSets) :
    addBody first left s (.terminal t :: rest) = addBody first left s rest := rfl

/-- A terminal is in the entry of a nonterminal. -/
def Has (s : FollowSets) (n : Nonterminal) (t : Terminal) : Prop := ∃ set, s.get? n = some set ∧ t ∈ set

/-- A nonterminal has the terminals of its entry. -/
theorem has_iff_mem {s : FollowSets} {n : Nonterminal} {set : TerminalSet} (h : s.get? n = some set)
    {t : Terminal} : s.Has n t ↔ t ∈ set := by
  unfold Has
  rw [h]
  simp

/-- What may follow an occurrence begins the rest of the body, or follows the head when the rest
may be empty. -/
theorem mem_following {left : Nonterminal} {rest : List Symbol} {s : FollowSets} {t : Terminal} :
    t ∈ following first left rest s ↔
      t ∈ (first.ofSequence rest).terminals ∨
        (first.ofSequence rest).nullable = true ∧ s.Has left t := by
  unfold following Has
  cases hleft : s.get? left with
  | none => split <;> simp_all
  | some set => split <;> simp_all

/-- An occurrence adds to the entry of its nonterminal what follows it, and nothing else. -/
theorem has_addOccurrence {left n m : Nonterminal} {rest : List Symbol} {s : FollowSets}
    {t : Terminal} (h : (s.addOccurrence first left n rest).Has m t) :
    s.Has m t ∨ m = n ∧ t ∈ following first left rest s := by
  obtain ⟨set, hset, ht⟩ := h
  unfold addOccurrence get? at hset
  rw [OrderedMap.get?_modify] at hset
  -- only the entry of the nonterminal changes
  split at hset
  · next hm =>
    obtain ⟨set₀, hset₀, rfl⟩ := Option.map_eq_some_iff.mp hset
    rcases SymbolSet.mem_union.mp ht with ht | ht
    · exact Or.inl ⟨set₀, hset₀, ht⟩
    · exact Or.inr ⟨hm, ht⟩
  · exact Or.inl ⟨set, hset, ht⟩

/-- An occurrence takes nothing away. -/
theorem Has.addOccurrence {m : Nonterminal} {s : FollowSets} {t : Terminal} (h : s.Has m t)
    (left n : Nonterminal) (rest : List Symbol) : (s.addOccurrence first left n rest).Has m t := by
  obtain ⟨set, hset, ht⟩ := h
  unfold get? at hset
  unfold Has FollowSets.addOccurrence get?
  rw [OrderedMap.get?_modify, hset]
  split
  · exact ⟨_, rfl, SymbolSet.mem_union.mpr (Or.inl ht)⟩
  · exact ⟨set, rfl, ht⟩

/-! ## Saturation -/

/-- The sets have an entry for each nonterminal but the fresh one, hold terminals of the grammar, and
have the end of the input behind the start symbol. -/
structure IsBounded (g : Grammar) (s : FollowSets) : Prop where
  /-- exactly the nonterminals but the fresh one have entries -/
  keys : s.entries.keys = g.allNonterminals.filter (· ≠ .freshStart)
  /-- the terminals are those of the grammar -/
  terminals : ∀ e ∈ s.entries.entries, ∀ t ∈ e.2, t ∈ g.allTerminals
  /-- the end of the input follows the start symbol -/
  start : s.Has g.start .endOfInput

/-- Every nonterminal that occurs has an entry. -/
theorem IsBounded.exists_get? {s : FollowSets} (h : s.IsBounded g) {n : Nonterminal}
    (hn : g.HasSymbol (.nonterminal n)) : ∃ set, s.get? n = some set := by
  unfold get?
  rw [OrderedMap.exists_get?_iff, h.keys, List.mem_filter, decide_eq_true_eq]
  exact ⟨Grammar.mem_allNonterminals.mpr hn.2, hn.1⟩

/-- What is added is about terminals of the grammar. -/
theorem IsBounded.following {s : FollowSets} (h : s.IsBounded g) (hfirst : first.IsBounded g)
    (left : Nonterminal) {rest : List Symbol} (hrest : ∀ x ∈ rest, g.HasSymbol x) :
    ∀ t ∈ FollowSets.following first left rest s, t ∈ g.allTerminals := by
  intro t ht
  rcases mem_following.mp ht with ht | ⟨-, set, hset, ht⟩
  · exact List.mem_of_mem_filter (hfirst.ofSequence hrest t ht)
  · exact h.terminals _ (OrderedMap.mem_entries_of_get? hset) t ht

/-- Adding an occurrence leaves less missing, unless it changes nothing. -/
theorem shrinks_addOccurrence (hfirst : first.IsBounded g) (left n : Nonterminal)
    {rest : List Symbol} (hrest : ∀ x ∈ rest, g.HasSymbol x) :
    Shrinks (IsBounded g) (fun s => s.entries.total (SymbolSet.missing g.allTerminals))
      (addOccurrence first left n rest) where
  keep s hs := by
    refine ⟨?_, fun e he t ht => ?_, hs.start.addOccurrence left n rest⟩
    · exact (OrderedMap.keys_modify ..).trans hs.keys
    · obtain ⟨e', he', rfl⟩ := List.mem_map.mp he
      split at ht
      · rcases SymbolSet.mem_union.mp ht with ht | ht
        · exact hs.terminals e' he' t ht
        · exact hs.following hfirst left hrest t ht
      · exact hs.terminals e' he' t ht
  shrink s hs hne := by
    refine OrderedMap.total_modify_lt (fun e _ hunion => ?_) fun heq => hne ?_
    -- a union that changes an entry brings a terminal that was missing
    · obtain ⟨t, ht, hnew⟩ := SymbolSet.exists_of_union_ne hunion
      exact SymbolSet.missing_lt (fun a ha => SymbolSet.mem_union.mpr (Or.inl ha))
        (hs.following hfirst left hrest t ht) hnew (SymbolSet.mem_union.mpr (Or.inr ht))
    · exact congrArg FollowSets.mk heq

/-- The same for all occurrences in a part of a body. -/
theorem shrinks_addBody (hfirst : first.IsBounded g) (left : Nonterminal) {body : List Symbol}
    (hbody : ∀ x ∈ body, g.HasSymbol x) :
    Shrinks (IsBounded g) (fun s => s.entries.total (SymbolSet.missing g.allTerminals))
      (addBody first left · body) := by
  induction body with
  | nil => exact Shrinks.refl
  | cons x rest ih =>
    have hrest : ∀ y ∈ rest, g.HasSymbol y := fun y hy => hbody y (List.mem_cons_of_mem _ hy)
    cases x with
    | terminal t => exact ih hrest
    | nonterminal n => exact (shrinks_addOccurrence hfirst left n hrest).comp (ih hrest)

/-- **A pass leaves less to add, unless it adds nothing.** -/
theorem shrinks_pass (wf : g.WellFormed) (hfirst : first.IsBounded g) :
    Shrinks (IsBounded g) (fun s => s.entries.total (SymbolSet.missing g.allTerminals))
      (pass first g.inputRules) :=
  Shrinks.foldl fun r hr => shrinks_addBody hfirst r.left (wf.hasSymbol_right r hr)

/-- The sets at the start are within the grammar. -/
theorem isBounded_initial (wf : g.WellFormed) : (initial g).IsBounded g where
  keys := (OrderedMap.keys_modify ..).trans (OrderedMap.keys_ofKeys ..)
  terminals e he t ht := by
    obtain ⟨e', he', rfl⟩ := List.mem_map.mp he
    obtain ⟨n, -, rfl⟩ := List.mem_map.mp he'
    split at ht
    · rw [SymbolSet.mem_singleton.mp ht]
      exact Grammar.mem_allTerminals.mpr wf.endOfInput_lt
    · exact absurd ht (SymbolSet.not_mem_empty t)
  start := by
    have hstart : g.start ∈ g.allNonterminals.filter (· ≠ .freshStart) :=
      List.mem_filter.mpr ⟨Grammar.mem_allNonterminals.mpr wf.hasSymbol_start.2,
        decide_eq_true wf.hasSymbol_start.1⟩
    refine ⟨{.endOfInput}, ?_, SymbolSet.mem_singleton.mpr rfl⟩
    unfold initial get?
    rw [OrderedMap.get?_modify, if_pos rfl, OrderedMap.get?_ofKeys, if_pos hstart]
    rfl

/-- The number of passes is above what is missing at the beginning. -/
theorem total_initial_lt (g : Grammar) :
    (initial g).entries.total (SymbolSet.missing g.allTerminals) < passBound g := by
  refine Nat.lt_succ_of_le (OrderedMap.total_le (fun s => ?_) _)
  exact Nat.le_trans (SymbolSet.missing_le_length _ s) (Nat.le_of_eq g.length_allTerminals)

/-- The finished sets are within the grammar. -/
theorem isBounded_ofGrammar (wf : g.WellFormed) (hfirst : first.IsBounded g) :
    (ofGrammar g first).IsBounded g :=
  (shrinks_pass wf hfirst).saturate_keep _ (isBounded_initial wf)

/-- When the occurrences in a part of a body together change nothing, none of them does. -/
theorem addOccurrence_of_addBody (hfirst : first.IsBounded g) {left : Nonterminal}
    {body : List Symbol} (hbody : ∀ x ∈ body, g.HasSymbol x) {s : FollowSets} (hs : s.IsBounded g)
    (hfix : addBody first left s body = s) {before rest : List Symbol} {n : Nonterminal}
    (heq : body = before ++ .nonterminal n :: rest) :
    s.addOccurrence first left n rest = s := by
  induction body generalizing before with
  | nil => exact absurd heq (by simp)
  | cons x tail ih =>
    have htail : ∀ y ∈ tail, g.HasSymbol y := fun y hy => hbody y (List.mem_cons_of_mem _ hy)
    cases x with
    | terminal t =>
      cases before with
      | nil => cases heq
      | cons y before => exact ih htail hfix (List.cons.inj heq).2
    | nonterminal m =>
      -- this occurrence and all those behind it change nothing together
      have hsteps := Shrinks.eq_of_comp (shrinks_addOccurrence hfirst left m htail)
        (shrinks_addBody hfirst left htail) hs hfix
      cases before with
      | nil =>
        cases heq
        exact hsteps.1
      | cons y before => exact ih htail hsteps.2 (List.cons.inj heq).2

/-- **No occurrence in a rule changes the `FOLLOW` sets any more.** -/
theorem addOccurrence_ofGrammar (wf : g.WellFormed) (hfirst : first.IsBounded g) {r : Rule}
    (hr : r ∈ g.inputRules) {before rest : List Symbol} {n : Nonterminal}
    (heq : r.right.toList = before ++ .nonterminal n :: rest) :
    (ofGrammar g first).addOccurrence first r.left n rest = ofGrammar g first := by
  have hpass : pass first g.inputRules (ofGrammar g first) = ofGrammar g first :=
    (shrinks_pass wf hfirst).saturate_fixed (isBounded_initial wf) (total_initial_lt g)
  have hrule := Shrinks.eq_of_foldl
    (fun r hr => shrinks_addBody hfirst r.left (wf.hasSymbol_right r hr))
    (isBounded_ofGrammar wf hfirst) hpass r hr
  exact addOccurrence_of_addBody hfirst (wf.hasSymbol_right r hr)
    (isBounded_ofGrammar wf hfirst) hrule heq

/-- **`FOLLOW` is saturated:** what an occurrence of a nonterminal adds is in its entry. -/
theorem ofGrammar_closed (wf : g.WellFormed) (hfirst : first.IsBounded g) {r : Rule}
    (hr : r ∈ g.inputRules) {before rest : List Symbol} {n : Nonterminal}
    (heq : r.right.toList = before ++ .nonterminal n :: rest) {t : Terminal}
    (ht : t ∈ following first r.left rest (ofGrammar g first)) : (ofGrammar g first).Has n t := by
  have hn : g.HasSymbol (.nonterminal n) := wf.hasSymbol_right r hr _ (by simp [heq])
  obtain ⟨set, hset⟩ := (isBounded_ofGrammar wf hfirst).exists_get? hn
  have hentries := congrArg FollowSets.entries (addOccurrence_ofGrammar wf hfirst hr heq)
  have hget := congrArg (·.get? n) hentries
  have hset' : (ofGrammar g first).entries.get? n = some set := hset
  simp only [addOccurrence, OrderedMap.get?_modify, if_true, hset', Option.map_some,
    Option.some.injEq] at hget
  refine ⟨set, hset, ?_⟩
  rw [← hget]
  exact SymbolSet.mem_union.mpr (Or.inr ht)

/-! ## Completeness -/

/-- Behind each nonterminal of a form, `FOLLOW` has all that begins the rest of the form, and also all
that satisfies `last` when the rest can vanish. -/
def Covers (s : FollowSets) (first : FirstSets) (last : Terminal → Prop) (form : List Symbol) :
    Prop :=
  ∀ before n rest, form = before ++ .nonterminal n :: rest →
    (∀ t ∈ (first.ofSequence rest).terminals, s.Has n t) ∧
      ((first.ofSequence rest).nullable = true → ∀ t, last t → s.Has n t)

/-- A single nonterminal is covered when its `FOLLOW` set has what comes last. -/
theorem covers_singleton {s : FollowSets} {last : Terminal → Prop} {n : Nonterminal}
    (h : ∀ t, last t → s.Has n t) : s.Covers first last [.nonterminal n] := by
  intro before m rest heq
  cases before with
  | nil =>
    cases heq
    exact ⟨fun t ht => absurd ht (SymbolSet.not_mem_empty t), fun _ => h⟩
  | cons x before => exact absurd (congrArg List.length heq) (by simp)

/-- **A step of a derivation keeps a form covered.** -/
theorem Covers.replaces (wf : g.WellFormed) {last : Terminal → Prop} {a b : List Symbol}
    (h : (ofGrammar g (FirstSets.ofGrammar g)).Covers (FirstSets.ofGrammar g) last a)
    (hstep : Replaces g.Expands a b) :
    (ofGrammar g (FirstSets.ofGrammar g)).Covers (FirstSets.ofGrammar g) last b := by
  obtain @⟨left, body, x, y, hexpands⟩ := hstep
  intro before n rest heq
  have hleft := h x left y rfl
  rcases split_append heq with ⟨z, hz, rfl⟩ | ⟨z, rfl, rfl⟩
  · rcases split_append hz with ⟨w, rfl, rfl⟩ | ⟨w, rfl, rfl⟩
    · -- in the unchanged beginning: `FIRST` of what stands behind the occurrence has not grown
      have hold := h before n (w ++ .nonterminal left :: y) (by simp)
      have hle := FirstSets.ofSequence_le_of_replaces wf (Replaces.of_rule w y hexpands)
      exact ⟨fun t ht => hold.1 t (hle.1 t ht), fun hn => hold.2 (hle.2 hn)⟩
    · -- in the body: a rule has been used, and `FOLLOW` is saturated
      rcases hexpands with ⟨r, hr, rfl, hbody⟩ | ⟨-, hempty⟩
      · have hclosed := fun t => ofGrammar_closed (t := t) wf
          (FirstSets.isBounded_ofGrammar wf) hr hbody
        rw [FirstSets.ofSequence_append]
        refine ⟨fun t ht => ?_, fun hn t ht => ?_⟩
        · rcases First.mem_seq.mp ht with ht | ⟨hn, ht⟩
          · exact hclosed t (mem_following.mpr (Or.inl ht))
          · exact hclosed t (mem_following.mpr (Or.inr ⟨hn, hleft.1 t ht⟩))
        · rw [First.nullable_seq] at hn
          exact hclosed t (mem_following.mpr (Or.inr ⟨hn.1, hleft.2 hn.2 t ht⟩))
      · exact absurd hempty (by simp)
  · -- in the unchanged end
    exact h (x ++ .nonterminal left :: z) n rest (by simp)

/-- A derivation keeps a form covered. -/
theorem Covers.derives (wf : g.WellFormed) {last : Terminal → Prop} {a b : List Symbol}
    (h : (ofGrammar g (FirstSets.ofGrammar g)).Covers (FirstSets.ofGrammar g) last a)
    (hab : Derives g.Expands a b) :
    (ofGrammar g (FirstSets.ofGrammar g)).Covers (FirstSets.ofGrammar g) last b := by
  induction hab with
  | refl => exact h
  | tail _ hstep ih => exact ih.replaces wf hstep

/-- What stands behind a nonterminal in a derived form is in its `FOLLOW` set. -/
theorem has_of_derives (wf : g.WellFormed) {A n : Nonterminal} {t : Terminal}
    {before after : List Symbol}
    (h : Derives g.Expands [.nonterminal A] (before ++ .nonterminal n :: .terminal t :: after)) :
    (ofGrammar g (FirstSets.ofGrammar g)).Has n t := by
  -- nothing is asked of what comes last
  have hsingle : (ofGrammar g (FirstSets.ofGrammar g)).Covers (FirstSets.ofGrammar g)
      (fun _ => False) [.nonterminal A] := covers_singleton fun t ht => ht.elim
  have hcovers := hsingle.derives wf h
  refine (hcovers before n _ rfl).1 t ?_
  rw [FirstSets.ofSequence_cons, First.mem_seq]
  exact Or.inl (SymbolSet.mem_singleton.mpr rfl)

/-- The end of the input is in the `FOLLOW` set of what comes last in a form that the start symbol
derives. -/
theorem has_endOfInput_of_derives (wf : g.WellFormed) {n : Nonterminal} {before : List Symbol}
    (h : Derives g.Expands [.nonterminal g.start] (before ++ [.nonterminal n])) :
    (ofGrammar g (FirstSets.ofGrammar g)).Has n .endOfInput := by
  have hstart := (isBounded_ofGrammar wf (FirstSets.isBounded_ofGrammar wf)).start
  -- here the end of the input comes last
  have hsingle : (ofGrammar g (FirstSets.ofGrammar g)).Covers (FirstSets.ofGrammar g)
      (· = .endOfInput) [.nonterminal g.start] := covers_singleton fun t ht => ht ▸ hstart
  exact (hsingle.derives wf h before n [] rfl).2 rfl _ rfl

end FollowSets

/-! ## Soundness -/

/-- A terminal follows a nonterminal in what the rules derive: directly behind it in a form that some
nonterminal derives, or for the end of the input last in a form that the start symbol derives.
Nonterminals without rules may vanish. -/
def Grammar.Follows (g : Grammar) (n : Nonterminal) (t : Terminal) : Prop :=
  if t = .endOfInput then
    ∃ before, Derives g.Expands [.nonterminal g.start] (before ++ [.nonterminal n])
  else
    ∃ A ∈ g.allNonterminals, A ≠ .freshStart ∧ ∃ before after,
      Derives g.Expands [.nonterminal A] (before ++ .nonterminal n :: .terminal t :: after)

/-- In place of a nonterminal a form derives an occurrence in one of its bodies, when all behind it
vanishes. -/
theorem Derives.occurrence {g : Grammar} {r : Rule} (hr : r ∈ g.inputRules) {form : List Symbol}
    {x y before rest : List Symbol} {n : Nonterminal}
    (h : Derives g.Expands form (x ++ .nonterminal r.left :: y))
    (heq : r.right.toList = before ++ .nonterminal n :: rest) (hrest : g.Vanishes rest) :
    Derives g.Expands form ((x ++ before) ++ .nonterminal n :: y) := by
  have hbody := h.tail (Replaces.of_rule x y (Or.inl ⟨r, hr, rfl, heq⟩))
  -- the rule is used first, and then all behind the occurrence vanishes
  have hvanish := hrest.context (x ++ before ++ [.nonterminal n]) y
  simp only [List.append_assoc, List.cons_append, List.nil_append] at hbody hvanish ⊢
  exact hbody.trans hvanish

namespace FollowSets

variable {g : Grammar} {first : FirstSets}

/-- What follows the head of a rule follows an occurrence in its body behind which all vanishes. -/
theorem follows_occurrence {r : Rule} (hr : r ∈ g.inputRules) {before rest : List Symbol}
    {n : Nonterminal} {t : Terminal} (heq : r.right.toList = before ++ .nonterminal n :: rest)
    (hrest : g.Vanishes rest) (h : g.Follows r.left t) : g.Follows n t := by
  unfold Grammar.Follows at h ⊢
  by_cases ht : t = .endOfInput
  · rw [if_pos ht] at h ⊢
    obtain ⟨x, hx⟩ := h
    exact ⟨x ++ before, hx.occurrence hr heq hrest⟩
  · rw [if_neg ht] at h ⊢
    obtain ⟨A, hA, hfresh, x, y, hxy⟩ := h
    exact ⟨A, hA, hfresh, x ++ before, y, hxy.occurrence hr heq hrest⟩

/-- What begins the rest of a body follows the occurrence in front of it. -/
theorem follows_of_begins (wf : g.WellFormed) {r : Rule} (hr : r ∈ g.inputRules)
    {before rest : List Symbol} {n : Nonterminal} {t : Terminal} (ht : t ≠ .endOfInput)
    (heq : r.right.toList = before ++ .nonterminal n :: rest) (h : g.Begins rest t) :
    g.Follows n t := by
  obtain ⟨after, hafter⟩ := h
  have hleft := wf.hasSymbol_left r hr
  have hrule : Derives g.Expands [.nonterminal r.left] (before ++ .nonterminal n :: rest) :=
    Derives.of_production (Or.inl ⟨r, hr, rfl, heq⟩)
  have hcontext := hafter.context (before ++ [.nonterminal n]) []
  simp only [List.append_assoc, List.cons_append, List.nil_append, List.append_nil] at hcontext
  unfold Grammar.Follows
  rw [if_neg ht]
  exact ⟨r.left, Grammar.mem_allNonterminals.mpr hleft.2, hleft.1, before, after,
    hrule.trans hcontext⟩

/-- Everything that the sets hold follows. -/
def IsSound (g : Grammar) (s : FollowSets) : Prop := ∀ n t, s.Has n t → g.Follows n t

/-- The occurrences in a part of a body keep the sets sound. -/
theorem IsSound.addBody (wf : g.WellFormed) (hb : first.IsBounded g) (hfirst : first.IsSound g)
    {r : Rule} (hr : r ∈ g.inputRules) {s : FollowSets} (hs : s.IsSound g)
    {before body : List Symbol} (heq : r.right.toList = before ++ body) :
    (FollowSets.addBody first r.left s body).IsSound g := by
  induction body generalizing before s with
  | nil => exact hs
  | cons x rest ih =>
    have hsplit : r.right.toList = (before ++ [x]) ++ rest := by simpa using heq
    cases x with
    | terminal t => exact ih hs hsplit
    | nonterminal n =>
      rw [addBody_nonterminal]
      refine ih (fun m t hm => ?_) hsplit
      -- what is new comes from this occurrence, by what is behind it or by the head
      rcases has_addOccurrence hm with hm | ⟨rfl, ht⟩
      · exact hs m t hm
      · have hbody : ∀ x ∈ rest, x ∈ r.right.toList := fun x hx => by simp [heq, hx]
        have hfresh : .nonterminal .freshStart ∉ rest := fun h =>
          wf.freshStart_not_mem hr (hbody _ h)
        have hrest := hfirst.ofSequence wf hb hfresh
        rcases mem_following.mp ht with ht | ⟨hn, ht⟩
        · have hsymbol := hb.ofSequence (fun x hx => wf.hasSymbol_right r hr x (hbody x hx)) t ht
          exact follows_of_begins wf hr (Grammar.mem_bodyTerminals.mp hsymbol).1 heq
            (hrest.begins t ht)
        · exact follows_occurrence hr heq (hrest.vanishes hn) (hs _ t ht)

/-- A pass keeps the sets sound. -/
theorem IsSound.pass (wf : g.WellFormed) (hb : first.IsBounded g) (hfirst : first.IsSound g)
    {s : FollowSets} (hs : s.IsSound g) (rules : List Rule)
    (hrules : ∀ r ∈ rules, r ∈ g.inputRules) : (FollowSets.pass first rules s).IsSound g := by
  induction rules generalizing s with
  | nil => exact hs
  | cons r rules ih =>
    have hr := hrules r (List.mem_cons_self ..)
    have hbody : r.right.toList = [] ++ r.right.toList := rfl
    exact ih (IsSound.addBody wf hb hfirst hr hs hbody)
      fun r' hr' => hrules r' (List.mem_cons_of_mem _ hr')

/-- **`FOLLOW` is sound:** what it holds follows in a derived form. -/
theorem ofGrammar_sound (wf : g.WellFormed) :
    (ofGrammar g (FirstSets.ofGrammar g)).IsSound g := by
  have hinitial : (initial g).IsSound g := by
    rintro n t ⟨set, hset, ht⟩
    unfold initial get? at hset
    rw [OrderedMap.get?_modify, OrderedMap.get?_ofKeys] at hset
    unfold Grammar.Follows
    split at hset
    · next hn =>
      split at hset
      · cases hset
        rw [if_pos (SymbolSet.mem_singleton.mp ht), hn]
        exact ⟨[], .refl _⟩
      · cases hset
    · split at hset
      · cases hset
        exact absurd ht (SymbolSet.not_mem_empty t)
      · cases hset
  have hkeep : ∀ s : FollowSets, s.IsSound g →
      (FollowSets.pass (FirstSets.ofGrammar g) g.inputRules s).IsSound g := fun s hs =>
    IsSound.pass wf (FirstSets.isBounded_ofGrammar wf) (FirstSets.ofGrammar_sound wf) hs _
      fun _ hr => hr
  exact saturate_induction hkeep _ hinitial

/-- A terminal is in the entry of a nonterminal exactly when it follows it. -/
theorem has_ofGrammar_iff (wf : g.WellFormed) {n : Nonterminal} {t : Terminal} :
    (ofGrammar g (FirstSets.ofGrammar g)).Has n t ↔ g.Follows n t := by
  refine ⟨ofGrammar_sound wf n t, fun h => ?_⟩
  unfold Grammar.Follows at h
  split at h
  · next ht =>
    obtain ⟨before, hb⟩ := h
    exact ht ▸ has_endOfInput_of_derives wf hb
  · obtain ⟨A, -, -, before, after, hb⟩ := h
    exact has_of_derives wf hb

/-- Exactly the nonterminals but the fresh start symbol have `FOLLOW` sets. -/
theorem exists_get?_ofGrammar_iff (wf : g.WellFormed) {n : Nonterminal} :
    (∃ set, (ofGrammar g (FirstSets.ofGrammar g)).get? n = some set) ↔
      n ∈ g.allNonterminals ∧ n ≠ .freshStart := by
  unfold get?
  rw [OrderedMap.exists_get?_iff, (isBounded_ofGrammar wf (FirstSets.isBounded_ofGrammar wf)).keys,
    List.mem_filter, decide_eq_true_eq]

/-- **`FOLLOW` is exactly what follows.** Each nonterminal but the fresh start symbol has an entry. A
terminal other than the end of the input is in it exactly when some nonterminal, reachable or not,
derives a form with that terminal directly behind the nonterminal; the end of the input is in it exactly
when the start symbol derives a form with the nonterminal at its end. -/
theorem mem_follow_iff_follows {defs : List RuleDef} {g : Grammar}
    (h : Grammar.augment defs = .ok g) {n : Nonterminal} (hn : n ∈ g.allNonterminals)
    (hfresh : n ≠ .freshStart) :
    ∃ set, (ofGrammar g (FirstSets.ofGrammar g)).get? n = some set ∧
      (∀ t, t ≠ .endOfInput → (t ∈ set ↔
        ∃ A ∈ g.allNonterminals, A ≠ .freshStart ∧ ∃ before after, Derives g.Expands
          [.nonterminal A] (before ++ .nonterminal n :: .terminal t :: after))) ∧
      (.endOfInput ∈ set ↔ ∃ before,
        Derives g.Expands [.nonterminal g.start] (before ++ [.nonterminal n])) := by
  have wf := Grammar.wellFormed_of_augment h
  obtain ⟨set, hset⟩ := (isBounded_ofGrammar wf (FirstSets.isBounded_ofGrammar wf)).exists_get?
    ⟨hfresh, Grammar.mem_allNonterminals.mp hn⟩
  have hhas : ∀ t, (ofGrammar g (FirstSets.ofGrammar g)).Has n t → t ∈ set := by
    rintro t ⟨set', hset', ht⟩
    rwa [Option.some.inj (hset.symm.trans hset')]
  have hsound := ofGrammar_sound wf n
  refine ⟨set, hset, fun t ht => ⟨fun hmem => ?_, ?_⟩, fun hmem => ?_, ?_⟩
  · have hfollows := hsound t ⟨set, hset, hmem⟩
    unfold Grammar.Follows at hfollows
    rwa [if_neg ht] at hfollows
  · rintro ⟨A, -, -, before, after, hderives⟩
    exact hhas t (has_of_derives wf hderives)
  · have hfollows := hsound _ ⟨set, hset, hmem⟩
    unfold Grammar.Follows at hfollows
    rwa [if_pos rfl] at hfollows
  · rintro ⟨before, hderives⟩
    exact hhas _ (has_endOfInput_of_derives wf hderives)

/-- A terminal stands two symbols behind a nonterminal: between them are a nonterminal without rules and
one that can vanish. -/
def gapRules : List RuleDef := [⟨"S", ["B", "U", "N", "t"]⟩, ⟨"B", ["b"]⟩, ⟨"N", []⟩]

/-- The rules by number. -/
theorem ofDefs_gapRules : Grammar.ofDefs gapRules =
    .ofNames ["$", "t", "b"] ["", "S", "B", "N", "U"] (by decide) (by decide)
      [⟨⟨1⟩, #[.nonterminal ⟨2⟩, .nonterminal ⟨4⟩, .nonterminal ⟨3⟩, .terminal ⟨1⟩]⟩,
        ⟨⟨2⟩, #[.terminal ⟨2⟩]⟩, ⟨⟨3⟩, #[]⟩] := by rfl

/-- The terminal behind the gap follows, and nothing else does. -/
theorem mem_follow_iff_follows_gapRules : ∃ g, Grammar.augment gapRules = .ok g ∧
    ⟨2⟩ ∈ g.allNonterminals ∧ (⟨2⟩ : Nonterminal) ≠ .freshStart ∧
    ∃ set, (ofGrammar g (FirstSets.ofGrammar g)).get? ⟨2⟩ = some set ∧
      (∀ t, t ≠ .endOfInput → (t ∈ set ↔
        ∃ A ∈ g.allNonterminals, A ≠ .freshStart ∧ ∃ before after, Derives g.Expands
          [.nonterminal A] (before ++ .nonterminal ⟨2⟩ :: .terminal t :: after))) ∧
      (.endOfInput ∈ set ↔ ∃ before,
        Derives g.Expands [.nonterminal g.start] (before ++ [.nonterminal ⟨2⟩])) ∧
      set = {⟨1⟩} := by
  obtain ⟨g, hg⟩ : ∃ g, Grammar.augment gapRules = .ok g :=
    Grammar.exists_augment (by decide) (by unfold RuleDef.IsValid; decide) (by decide) (by decide)
  have hsame := Grammar.sameNumbers_ofDefs hg
  rw [ofDefs_gapRules] at hsame
  have hmem : (⟨2⟩ : Nonterminal) ∈ g.allNonterminals := by
    rw [hsame.allNonterminals]
    decide
  have hfollow : (ofGrammar g (FirstSets.ofGrammar g)).get? ⟨2⟩ = some {⟨1⟩} := by
    rw [hsame.firstSets, hsame.followSets]
    decide +kernel
  obtain ⟨set, hset, hterminal, hend⟩ := mem_follow_iff_follows hg hmem (by decide)
  exact ⟨g, hg, hmem, by decide, set, hset, hterminal, hend,
    Option.some.inj (hset.symm.trans hfollow)⟩

end FollowSets

end ShiftReduce
