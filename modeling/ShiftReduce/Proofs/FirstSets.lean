import ShiftReduce.Derivation
import ShiftReduce.First
import ShiftReduce.Proofs.Augmentation
import ShiftReduce.Proofs.Fixpoint

/-! # The FIRST sets are exact

`FIRST` of a sequence is the sequential composition (`First.seq`) of `FIRST` of its symbols, so it can be
split anywhere (`ofSequence_append`). The passes end in sets that no rule changes any more: `FIRST` of a
head has all of `FIRST` of its bodies (`ofGrammar_closed`). And what the sets hold is derived when
nonterminals without rules may vanish (`ofGrammar_sound`). A saturated set covers whatever is derived
(`ofSequence_le_of_derives`), so that both together say what the entries are
(`mem_first_iff_derives`). -/

namespace ShiftReduce

/-! ## Sequential composition -/

namespace First

/-- The words of one followed by words of the other. -/
def seq (a b : First) : First :=
  ⟨a.terminals ∪ (if a.nullable then b.terminals else ∅), a.nullable && b.nullable⟩

/-- All words of the one are words of the other, as far as is known. -/
instance : LE First :=
  ⟨fun a b => (∀ t ∈ a.terminals, t ∈ b.terminals) ∧ (a.nullable = true → b.nullable = true)⟩

/-- An entry is below another when its terminals and its empty word are in the other one too. -/
theorem le_def {a b : First} :
    a ≤ b ↔ (∀ t ∈ a.terminals, t ∈ b.terminals) ∧ (a.nullable = true → b.nullable = true) :=
  Iff.rfl

/-- An entry is below itself. -/
protected theorem le_refl (a : First) : a ≤ a := ⟨fun _ h => h, fun h => h⟩

/-- The order of entries is transitive. -/
protected theorem le_trans {a b c : First} (hab : a ≤ b) (hbc : b ≤ c) : a ≤ c :=
  ⟨fun t ht => hbc.1 t (hab.1 t ht), fun h => hbc.2 (hab.2 h)⟩

/-- A word of two parts begins like the first, or like the second when the first may be empty. -/
@[simp] theorem mem_seq {a b : First} {t : Terminal} :
    t ∈ (a.seq b).terminals ↔ t ∈ a.terminals ∨ a.nullable = true ∧ t ∈ b.terminals := by
  unfold seq
  cases hn : a.nullable <;> simp

/-- Two parts may be empty together when each may be. -/
@[simp] theorem nullable_seq {a b : First} :
    (a.seq b).nullable = true ↔ a.nullable = true ∧ b.nullable = true := by
  simp [seq]

/-- Entries with the same terminals and the same nullability are equal. -/
protected theorem ext {a b : First} (ht : ∀ t, t ∈ a.terminals ↔ t ∈ b.terminals)
    (hn : a.nullable = true ↔ b.nullable = true) : a = b := by
  obtain ⟨at', an⟩ := a
  obtain ⟨bt, bn⟩ := b
  obtain rfl : at' = bt := SymbolSet.ext ht
  obtain rfl : an = bn := Bool.eq_iff_iff.mpr hn
  rfl

/-- How a sequence is put into parts makes no difference. -/
theorem seq_assoc (a b c : First) : (a.seq b).seq c = a.seq (b.seq c) := by
  refine First.ext (fun t => ?_) ?_
  · simp only [mem_seq, nullable_seq]
    tauto
  · simp only [nullable_seq]
    tauto

/-- The empty word in front changes nothing. -/
theorem empty_seq (a : First) : seq ⟨∅, true⟩ a = a := by
  refine First.ext (fun t => ?_) ?_ <;> simp

/-- The empty word behind changes nothing. -/
theorem seq_empty (a : First) : seq a ⟨∅, true⟩ = a := by
  refine First.ext (fun t => ?_) ?_ <;> simp

/-- Larger parts make a larger sequence. -/
theorem seq_le_seq {a a' b b' : First} (ha : a ≤ a') (hb : b ≤ b') : a.seq b ≤ a'.seq b' := by
  refine ⟨fun t => ?_, ?_⟩
  · rw [mem_seq, mem_seq]
    rintro (ht | ⟨hn, ht⟩)
    · exact Or.inl (ha.1 t ht)
    · exact Or.inr ⟨ha.2 hn, hb.1 t ht⟩
  · rw [nullable_seq, nullable_seq]
    exact fun h => ⟨ha.2 h.1, hb.2 h.2⟩

/-- A joined entry has the terminals of both. -/
theorem mem_join {a b : First} {t : Terminal} :
    t ∈ (a.join b).terminals ↔ t ∈ a.terminals ∨ t ∈ b.terminals :=
  SymbolSet.mem_union

/-- A joined entry may be empty when one of the two may be. -/
theorem nullable_join {a b : First} :
    (a.join b).nullable = true ↔ a.nullable = true ∨ b.nullable = true := by
  simp [join]

/-- Joining what is already known changes nothing, and only that. -/
theorem join_eq_left_iff {a b : First} : a.join b = a ↔ b ≤ a := by
  constructor
  · intro h
    refine ⟨fun t ht => ?_, fun hn => ?_⟩
    · rw [← h]
      exact mem_join.mpr (Or.inr ht)
    · rw [← h]
      exact nullable_join.mpr (Or.inr hn)
  · intro h
    refine First.ext (fun t => ?_) ?_
    · rw [mem_join]
      exact ⟨fun ht => ht.elim id (h.1 t), Or.inl⟩
    · rw [nullable_join]
      exact ⟨fun hn => hn.elim id h.2, Or.inl⟩

end First

namespace FirstSets

/-- `FIRST` of a single symbol; one without an entry is passed over. -/
def ofSymbol (s : FirstSets) : Symbol → First
  | .terminal t => ⟨{t}, false⟩
  | .nonterminal n => (s.get? n).getD ⟨∅, true⟩

/-- A terminal begins with itself and is not empty. -/
@[simp] theorem ofSymbol_terminal (s : FirstSets) (t : Terminal) :
    s.ofSymbol (.terminal t) = ⟨{t}, false⟩ := rfl

/-- A nonterminal has its own entry; one without an entry stands for the empty word. -/
@[simp] theorem ofSymbol_nonterminal (s : FirstSets) (n : Nonterminal) :
    s.ofSymbol (.nonterminal n) = (s.get? n).getD ⟨∅, true⟩ := rfl

/-- The empty sequence stands for the empty word. -/
@[simp] theorem ofSequence_nil (s : FirstSets) : s.ofSequence [] = ⟨∅, true⟩ := rfl

/-- `FIRST` of a sequence is that of its first symbol followed by that of the others. -/
theorem ofSequence_cons (s : FirstSets) (x : Symbol) (form : List Symbol) :
    s.ofSequence (x :: form) = (s.ofSymbol x).seq (s.ofSequence form) := by
  cases x with
  | terminal t =>
    refine First.ext (fun t' => ?_) ?_ <;> simp [ofSequence, ofSymbol]
  | nonterminal n =>
    rw [ofSequence, ofSymbol_nonterminal]
    cases hn : s.get? n with
    | none => exact (First.empty_seq _).symm
    | some f =>
      simp only [Option.getD_some]
      refine First.ext (fun t => ?_) ?_
      · cases hf : f.nullable <;> simp [hf]
      · cases hf : f.nullable <;> simp [hf]

/-- `FIRST` of a sequence can be split anywhere. -/
theorem ofSequence_append (s : FirstSets) (a b : List Symbol) :
    s.ofSequence (a ++ b) = (s.ofSequence a).seq (s.ofSequence b) := by
  induction a with
  | nil => rw [List.nil_append, ofSequence_nil, First.empty_seq]
  | cons x a ih => rw [List.cons_append, ofSequence_cons, ih, ofSequence_cons, First.seq_assoc]

/-- A sequence of one symbol is that symbol. -/
theorem ofSequence_singleton (s : FirstSets) (x : Symbol) : s.ofSequence [x] = s.ofSymbol x := by
  rw [ofSequence_cons, ofSequence_nil, First.seq_empty]

end FirstSets

/-! ## Entries -/

/-- The terminals that can stand in bodies. -/
def Grammar.bodyTerminals (g : Grammar) : List Terminal :=
  g.allTerminals.filter (· ≠ .endOfInput)

/-- The terminals are the ones with a name. -/
theorem Grammar.mem_allTerminals {g : Grammar} {t : Terminal} :
    t ∈ g.allTerminals ↔ t.number < g.terminals.size := by
  unfold allTerminals
  rw [List.mem_map]
  constructor
  · rintro ⟨i, hi, rfl⟩
    exact List.mem_range.mp hi
  · exact fun h => ⟨t.number, List.mem_range.mpr h, rfl⟩

/-- There are as many terminals as names of them. -/
theorem Grammar.length_allTerminals (g : Grammar) : g.allTerminals.length = g.terminals.size := by
  unfold allTerminals
  rw [List.length_map, List.length_range]

/-- The terminals of the bodies are those that some rule writes. -/
theorem Grammar.mem_bodyTerminals {g : Grammar} {t : Terminal} :
    t ∈ g.bodyTerminals ↔ g.HasSymbol (.terminal t) := by
  unfold bodyTerminals HasSymbol
  rw [List.mem_filter, mem_allTerminals, decide_eq_true_eq]
  exact and_comm

/-- The nonterminals are the ones with a name. -/
theorem Grammar.mem_allNonterminals {g : Grammar} {n : Nonterminal} :
    n ∈ g.allNonterminals ↔ n.number < g.nonterminals.size := by
  unfold allNonterminals
  rw [List.mem_map]
  constructor
  · rintro ⟨i, hi, rfl⟩
    exact List.mem_range.mp hi
  · exact fun h => ⟨n.number, List.mem_range.mpr h, rfl⟩

/-- A nonterminal has rules when it heads one that was read, or is the fresh start symbol. -/
theorem Grammar.WellFormed.isDefined_iff {g : Grammar} (wf : g.WellFormed) {n : Nonterminal} :
    g.isDefined n = true ↔ n = .freshStart ∨ ∃ r ∈ g.inputRules, r.left = n := by
  unfold isDefined
  rw [← Array.any_toList, wf.startRule, List.any_cons, Bool.or_eq_true, List.any_eq_true]
  simp only [decide_eq_true_eq, eq_comm (b := n)]

/-- The fresh start symbol stands in no body. -/
theorem Grammar.WellFormed.freshStart_not_mem {g : Grammar} (wf : g.WellFormed) {r : Rule}
    (hr : r ∈ g.inputRules) : .nonterminal .freshStart ∉ r.right.toList := fun h =>
  (wf.hasSymbol_right r hr _ h).1 rfl

namespace FirstSets

variable {g : Grammar}

/-- The sets have an entry for each head and hold no terminals but those of bodies. -/
structure IsBounded (g : Grammar) (s : FirstSets) : Prop where
  /-- exactly the heads of rules have entries -/
  keys : s.entries.keys = (g.inputRules.map (·.left)).eraseDups
  /-- the terminals can stand in bodies -/
  terminals : ∀ e ∈ s.entries.entries, ∀ t ∈ e.2.terminals, t ∈ g.bodyTerminals

/-- Exactly the heads of rules have entries. -/
theorem IsBounded.exists_get?_iff {s : FirstSets} (h : s.IsBounded g) {n : Nonterminal} :
    (∃ f, s.get? n = some f) ↔ ∃ r ∈ g.inputRules, r.left = n := by
  unfold get?
  rw [OrderedMap.exists_get?_iff, h.keys, List.mem_eraseDups, List.mem_map]

/-- `FIRST` of a body holds no terminals but those of bodies. -/
theorem IsBounded.ofSequence {s : FirstSets} (h : s.IsBounded g) {form : List Symbol}
    (hform : ∀ x ∈ form, g.HasSymbol x) :
    ∀ t ∈ (s.ofSequence form).terminals, t ∈ g.bodyTerminals := by
  induction form with
  | nil => exact fun t ht => absurd ht (SymbolSet.not_mem_empty t)
  | cons x form ih =>
    intro t ht
    rw [ofSequence_cons, First.mem_seq] at ht
    -- a terminal comes from the first symbol, or from the rest when that can vanish
    rcases ht with ht | ⟨-, ht⟩
    · cases x with
      | terminal t' =>
        rw [ofSymbol_terminal, SymbolSet.mem_singleton] at ht
        subst ht
        exact Grammar.mem_bodyTerminals.mpr (hform _ (List.mem_cons_self ..))
      | nonterminal n =>
        rw [ofSymbol_nonterminal] at ht
        cases hn : s.get? n with
        | none =>
          rw [hn] at ht
          exact absurd ht (SymbolSet.not_mem_empty t)
        | some f =>
          rw [hn] at ht
          exact h.terminals _ (OrderedMap.mem_entries_of_get? hn) t ht
    · exact ih (fun y hy => hform y (List.mem_cons_of_mem _ hy)) t ht

/-! ## Saturation -/

/-- What is not known yet of one entry. -/
def unknown (g : Grammar) (f : First) : Nat :=
  f.terminals.missing g.bodyTerminals + if f.nullable then 0 else 1

/-- Joining something new leaves less unknown. -/
theorem unknown_join_lt {f added : First} (hadded : ∀ t ∈ added.terminals, t ∈ g.bodyTerminals)
    (hne : f.join added ≠ f) : unknown g (f.join added) < unknown g f := by
  have hgrow : ∀ t, t ∈ f.terminals → t ∈ (f.join added).terminals := fun t ht =>
    First.mem_join.mpr (Or.inl ht)
  unfold unknown
  by_cases hset : f.terminals ∪ added.terminals = f.terminals
  · -- no new terminal, so the empty word is new
    have hnew : f.nullable = false ∧ added.nullable = true := by
      by_contra hnot
      refine hne (First.ext (fun t => ?_) ?_)
      · rw [First.join, hset]
      · rw [First.nullable_join]
        cases hf : f.nullable <;> simp_all
    have hle : (f.join added).terminals.missing g.bodyTerminals ≤
        f.terminals.missing g.bodyTerminals := SymbolSet.missing_anti hgrow
    rw [if_pos (First.nullable_join.mpr (Or.inr hnew.2)), hnew.1, if_neg Bool.false_ne_true]
    omega
  -- a new terminal outweighs the empty word, which is never lost
  · obtain ⟨t, ht, htf⟩ := SymbolSet.exists_of_union_ne hset
    have hlt : (f.join added).terminals.missing g.bodyTerminals <
        f.terminals.missing g.bodyTerminals :=
      SymbolSet.missing_lt hgrow (hadded t ht) htf (First.mem_join.mpr (Or.inr ht))
    cases hf : f.nullable with
    | true =>
      rw [if_pos (First.nullable_join.mpr (Or.inl hf)), if_pos rfl]
      omega
    | false =>
      rw [if_neg Bool.false_ne_true]
      split <;> omega

/-- Adding a rule leaves less unknown, unless it changes nothing. -/
theorem shrinks_addRule (wf : g.WellFormed) {r : Rule} (hr : r ∈ g.inputRules) :
    Shrinks (IsBounded g) (fun s => s.entries.total (unknown g)) (addRule · r) where
  keep s hs := by
    refine ⟨?_, fun e he t ht => ?_⟩
    -- the keys stay, and what is joined comes from the body
    · exact (OrderedMap.keys_modify ..).trans hs.keys
    · obtain ⟨e', he', rfl⟩ := List.mem_map.mp he
      split at ht
      · rcases First.mem_join.mp ht with ht | ht
        · exact hs.terminals e' he' t ht
        · exact hs.ofSequence (wf.hasSymbol_right r hr) t ht
      · exact hs.terminals e' he' t ht
  shrink s hs hne := by
    refine OrderedMap.total_modify_lt (fun e _ hjoin => ?_) fun heq => hne ?_
    · exact unknown_join_lt (hs.ofSequence (wf.hasSymbol_right r hr)) hjoin
    · exact congrArg FirstSets.mk heq

/-- **A pass leaves less to add, unless it adds nothing.** -/
theorem shrinks_pass (wf : g.WellFormed) :
    Shrinks (IsBounded g) (fun s => s.entries.total (unknown g)) (pass g.inputRules) :=
  Shrinks.foldl fun _ hr => shrinks_addRule wf hr

/-- The empty sets are within the grammar. -/
theorem isBounded_initial (g : Grammar) : (initial g.inputRules).IsBounded g where
  keys := OrderedMap.keys_ofKeys ..
  terminals e he t ht := by
    obtain ⟨n, -, rfl⟩ := List.mem_map.mp he
    exact absurd ht (SymbolSet.not_mem_empty t)

/-- No more is unknown of an entry than there are terminals: the end of the input is no terminal of a
body, which makes room for the empty word. -/
theorem unknown_le (wf : g.WellFormed) (f : First) : unknown g f ≤ g.terminals.size := by
  -- the terminals of the grammar are those of bodies and the end of the input
  have hsplit := List.length_eq_countP_add_countP (l := g.allTerminals) (· ≠ Terminal.endOfInput)
  have hend : 0 < g.allTerminals.countP fun t =>
      decide ¬ decide (t ≠ Terminal.endOfInput) = true := by
    rw [List.countP_pos_iff]
    exact ⟨.endOfInput, Grammar.mem_allTerminals.mpr wf.endOfInput_lt, by simp⟩
  have hbody : g.bodyTerminals.length = g.allTerminals.countP (· ≠ Terminal.endOfInput) :=
    List.countP_eq_length_filter.symm
  have hle := SymbolSet.missing_le_length g.bodyTerminals f.terminals
  rw [Grammar.length_allTerminals] at hsplit
  unfold unknown
  split <;> omega

/-- The number of passes is above what is unknown at the beginning. -/
theorem total_initial_lt (wf : g.WellFormed) :
    (initial g.inputRules).entries.total (unknown g) < passBound g :=
  Nat.lt_succ_of_le (OrderedMap.total_le (unknown_le wf) _)

/-- The finished sets are within the grammar. -/
theorem isBounded_ofGrammar (wf : g.WellFormed) : (ofGrammar g).IsBounded g :=
  (shrinks_pass wf).saturate_keep _ (isBounded_initial g)

/-- Exactly the heads of rules that were read have `FIRST` sets. -/
theorem exists_get?_ofGrammar_iff (wf : g.WellFormed) {n : Nonterminal} :
    (∃ f, (ofGrammar g).get? n = some f) ↔ ∃ r ∈ g.inputRules, r.left = n :=
  (isBounded_ofGrammar wf).exists_get?_iff

/-- Without a `FIRST` set a nonterminal has no rules, unless it is the fresh start symbol. -/
theorem isDefined_of_get?_eq_none (wf : g.WellFormed) {s : FirstSets} (hs : s.IsBounded g)
    {n : Nonterminal} (hfresh : n ≠ .freshStart) (h : s.get? n = none) :
    g.isDefined n = false := by
  rw [← Bool.not_eq_true, wf.isDefined_iff]
  rintro (heq | hrule)
  · exact hfresh heq
  · obtain ⟨f, hf⟩ := hs.exists_get?_iff.mpr hrule
    rw [h] at hf
    cases hf

/-- **No rule changes the `FIRST` sets any more.** -/
theorem addRule_ofGrammar (wf : g.WellFormed) {r : Rule} (hr : r ∈ g.inputRules) :
    (ofGrammar g).addRule r = ofGrammar g := by
  have hpass : pass g.inputRules (ofGrammar g) = ofGrammar g :=
    (shrinks_pass wf).saturate_fixed (isBounded_initial g) (total_initial_lt wf)
  exact Shrinks.eq_of_foldl (fun _ => shrinks_addRule wf) (isBounded_ofGrammar wf) hpass r hr

/-- A rule that changes nothing has a body that adds nothing to the entry of its head. -/
theorem ofSequence_le_of_addRule {s : FirstSets} {r : Rule} (h : s.addRule r = s) {f : First}
    (hf : s.get? r.left = some f) : s.ofSequence r.right.toList ≤ f := by
  have hget := congrArg (fun s => s.entries.get? r.left) h
  rw [addRule] at hget
  unfold get? at hf
  simp only [OrderedMap.get?_modify, if_true, hf, Option.map_some, Option.some.injEq] at hget
  exact First.join_eq_left_iff.mp hget

/-- **`FIRST` is saturated:** what `FIRST` of a body holds, `FIRST` of the head holds too. -/
theorem ofGrammar_closed (wf : g.WellFormed) {r : Rule} (hr : r ∈ g.inputRules) :
    (ofGrammar g).ofSequence r.right.toList ≤ (ofGrammar g).ofSymbol (.nonterminal r.left) := by
  obtain ⟨f, hf⟩ := (exists_get?_ofGrammar_iff wf).mpr ⟨r, hr, rfl⟩
  rw [ofSymbol_nonterminal, hf]
  exact ofSequence_le_of_addRule (addRule_ofGrammar wf hr) hf

/-- A production, also one that makes a nonterminal without rules vanish, adds nothing to `FIRST`. -/
theorem ofSequence_le_of_expands (wf : g.WellFormed) {n : Nonterminal} {body : List Symbol}
    (h : g.Expands n body) :
    (ofGrammar g).ofSequence body ≤ (ofGrammar g).ofSymbol (.nonterminal n) := by
  rcases h with ⟨r, hr, rfl, rfl⟩ | ⟨hundefined, rfl⟩
  -- a rule that was read
  · exact ofGrammar_closed wf hr
  -- a nonterminal without rules has no entry and is passed over
  · have hnone : (ofGrammar g).get? n = none := by
      rw [Option.eq_none_iff_forall_ne_some]
      intro f hf
      have hrule := (exists_get?_ofGrammar_iff wf).mp ⟨f, hf⟩
      rw [wf.isDefined_iff.mpr (Or.inr hrule)] at hundefined
      cases hundefined
    rw [ofSymbol_nonterminal, hnone]
    exact First.le_refl _

/-- Replacing a nonterminal in a form adds nothing to its `FIRST` set. -/
theorem ofSequence_le_of_replaces (wf : g.WellFormed) {a b : List Symbol}
    (h : Replaces g.Expands a b) : (ofGrammar g).ofSequence b ≤ (ofGrammar g).ofSequence a := by
  obtain ⟨before, after, hexpands⟩ := h
  have hbody := ofSequence_le_of_expands wf hexpands
  rw [List.append_assoc, ofSequence_append, ofSequence_append, ofSequence_append, ofSequence_cons]
  exact First.seq_le_seq (First.le_refl _) (First.seq_le_seq hbody (First.le_refl _))

end FirstSets

/-! ## Soundness -/

/-- A form derives one that begins with a terminal, when nonterminals without rules may vanish. -/
def Grammar.Begins (g : Grammar) (form : List Symbol) (t : Terminal) : Prop :=
  ∃ rest, Derives g.Expands form (.terminal t :: rest)

/-- A form derives the empty one, when nonterminals without rules may vanish. -/
def Grammar.Vanishes (g : Grammar) (form : List Symbol) : Prop := Derives g.Expands form []

/-- What is known to begin the words of a form is right. -/
structure First.IsSound (g : Grammar) (form : List Symbol) (f : First) : Prop where
  /-- the terminals begin something that is derived -/
  begins : ∀ t ∈ f.terminals, g.Begins form t
  /-- the empty word is derived -/
  vanishes : f.nullable = true → g.Vanishes form

/-- Right knowledge of two forms is right of the one followed by the other. -/
theorem First.IsSound.seq {g : Grammar} {x y : List Symbol} {a b : First} (ha : a.IsSound g x)
    (hb : b.IsSound g y) : (a.seq b).IsSound g (x ++ y) where
  begins t ht := by
    rw [First.mem_seq] at ht
    rcases ht with ht | ⟨hn, ht⟩
    · obtain ⟨rest, hrest⟩ := ha.begins t ht
      exact ⟨rest ++ y, hrest.append (.refl y)⟩
    · obtain ⟨rest, hrest⟩ := hb.begins t ht
      exact ⟨rest, (ha.vanishes hn).append hrest⟩
  vanishes hn := by
    rw [First.nullable_seq] at hn
    exact (ha.vanishes hn.1).append (hb.vanishes hn.2)

namespace FirstSets

variable {g : Grammar}

/-- Everything that the sets hold is derived. -/
def IsSound (g : Grammar) (s : FirstSets) : Prop :=
  ∀ n f, s.get? n = some f → f.IsSound g [.nonterminal n]

/-- Sound sets are right about every form without the fresh start symbol. -/
theorem IsSound.ofSequence (wf : g.WellFormed) {s : FirstSets} (hb : s.IsBounded g)
    (hs : s.IsSound g) {form : List Symbol} (hform : .nonterminal .freshStart ∉ form) :
    (s.ofSequence form).IsSound g form := by
  induction form with
  | nil => exact ⟨fun t ht => absurd ht (SymbolSet.not_mem_empty t), fun _ => .refl []⟩
  | cons x form ih =>
    rw [List.mem_cons, not_or] at hform
    rw [ofSequence_cons, ← List.singleton_append]
    refine First.IsSound.seq ?_ (ih hform.2)
    cases x with
    | terminal t =>
      refine ⟨fun t' ht' => ?_, fun hn => ?_⟩
      · rw [ofSymbol_terminal, SymbolSet.mem_singleton] at ht'
        exact ⟨[], ht' ▸ .refl _⟩
      · exact absurd hn Bool.false_ne_true
    | nonterminal n =>
      rw [ofSymbol_nonterminal]
      cases hn : s.get? n with
      | some f => exact hs n f hn
      -- without an entry the nonterminal has no rules, and so it may vanish
      | none =>
        have hfresh : n ≠ .freshStart := fun heq => hform.1 (heq ▸ rfl)
        have hundefined := isDefined_of_get?_eq_none wf hb hfresh hn
        refine ⟨fun t ht => absurd ht (SymbolSet.not_mem_empty t), fun _ => ?_⟩
        exact Derives.of_production (Or.inr ⟨hundefined, rfl⟩)

/-- Adding a rule keeps the sets sound. -/
theorem IsSound.addRule (wf : g.WellFormed) {s : FirstSets} (hb : s.IsBounded g)
    (hs : s.IsSound g) {r : Rule} (hr : r ∈ g.inputRules) : (s.addRule r).IsSound g := by
  intro n f hf
  unfold FirstSets.addRule get? at hf
  simp only [OrderedMap.get?_modify] at hf
  split at hf
  · next hn =>
    subst hn
    obtain ⟨f₀, hf₀, rfl⟩ := Option.map_eq_some_iff.mp hf
    have hbody := IsSound.ofSequence wf hb hs (wf.freshStart_not_mem hr)
    have hrule : Derives g.Expands [.nonterminal r.left] r.right.toList :=
      Derives.of_production (Or.inl ⟨r, hr, rfl, rfl⟩)
    -- what the body begins with is derived by way of the rule
    refine ⟨fun t ht => ?_, fun hn => ?_⟩
    · rcases First.mem_join.mp ht with ht | ht
      · exact (hs _ f₀ hf₀).begins t ht
      · obtain ⟨rest, hrest⟩ := hbody.begins t ht
        exact ⟨rest, hrule.trans hrest⟩
    · rcases First.nullable_join.mp hn with hn | hn
      · exact (hs _ f₀ hf₀).vanishes hn
      · exact hrule.trans (hbody.vanishes hn)
  · exact hs n f hf

/-- A pass keeps the sets bounded and sound. -/
theorem IsSound.pass (wf : g.WellFormed) {s : FirstSets} (h : s.IsBounded g ∧ s.IsSound g)
    (rules : List Rule) (hrules : ∀ r ∈ rules, r ∈ g.inputRules) :
    (FirstSets.pass rules s).IsBounded g ∧ (FirstSets.pass rules s).IsSound g := by
  induction rules generalizing s with
  | nil => exact h
  | cons r rules ih =>
    have hr := hrules r (List.mem_cons_self ..)
    exact ih ⟨(shrinks_addRule wf hr).keep s h.1, h.2.addRule wf h.1 hr⟩
      fun r' hr' => hrules r' (List.mem_cons_of_mem _ hr')

/-- **`FIRST` is sound:** what it holds is derived. -/
theorem ofGrammar_sound (wf : g.WellFormed) : (ofGrammar g).IsSound g := by
  have hinitial : (initial g.inputRules).IsSound g := by
    intro n f hf
    unfold initial get? at hf
    rw [OrderedMap.get?_ofKeys] at hf
    split at hf
    · cases hf
      exact ⟨fun t ht => absurd ht (SymbolSet.not_mem_empty t), fun hn => absurd hn (by decide)⟩
    · cases hf
  have hkeep : ∀ s : FirstSets, s.IsBounded g ∧ s.IsSound g →
      (FirstSets.pass g.inputRules s).IsBounded g ∧ (FirstSets.pass g.inputRules s).IsSound g :=
    fun s hs => IsSound.pass wf hs _ fun _ hr => hr
  -- the induction is on passes, which need the sets to be bounded as well
  exact (saturate_induction hkeep (passBound g) ⟨isBounded_initial g, hinitial⟩).2

/-! ## Exactness -/

/-- **`FIRST` is complete:** a derivation adds nothing to `FIRST` of the form that it begins with. -/
theorem ofSequence_le_of_derives (wf : g.WellFormed) {a b : List Symbol}
    (h : Derives g.Expands a b) : (ofGrammar g).ofSequence b ≤ (ofGrammar g).ofSequence a := by
  induction h with
  | refl => exact First.le_refl _
  | tail _ hstep ih => exact First.le_trans (ofSequence_le_of_replaces wf hstep) ih

/-- **`FIRST` of a sequence is exact:** it holds just what begins the forms that the sequence derives,
and it is nullable just when the sequence vanishes. -/
theorem exact_ofSequence (wf : g.WellFormed) {form : List Symbol}
    (hform : .nonterminal .freshStart ∉ form) :
    (∀ t, t ∈ ((ofGrammar g).ofSequence form).terminals ↔ g.Begins form t) ∧
      (((ofGrammar g).ofSequence form).nullable = true ↔ g.Vanishes form) := by
  have hsound := (ofGrammar_sound wf).ofSequence wf (isBounded_ofGrammar wf) hform
  constructor
  · intro t
    refine ⟨hsound.begins t, ?_⟩
    rintro ⟨rest, hrest⟩
    apply (ofSequence_le_of_derives wf hrest).1
    simp [ofSequence]
  · exact ⟨hsound.vanishes, fun hempty => (ofSequence_le_of_derives wf hempty).2 rfl⟩

/-- The entry of a nonterminal holds just what begins the forms that it derives, and it is nullable
just when the nonterminal vanishes. -/
theorem exact_of_get? (wf : g.WellFormed) {n : Nonterminal} {f : First}
    (h : (ofGrammar g).get? n = some f) :
    (∀ t, t ∈ f.terminals ↔ g.Begins [.nonterminal n] t) ∧
      (f.nullable = true ↔ g.Vanishes [.nonterminal n]) := by
  -- heads are nonterminals that were read, and the fresh start symbol was not
  have hfresh : .nonterminal .freshStart ∉ [Symbol.nonterminal n] := by
    obtain ⟨r, hr, rfl⟩ := (exists_get?_ofGrammar_iff wf).mp ⟨f, h⟩
    rw [List.mem_singleton, Symbol.nonterminal.injEq]
    exact fun heq => (wf.hasSymbol_left r hr).1 heq.symm
  have hexact := exact_ofSequence wf hfresh
  rwa [ofSequence_singleton, ofSymbol_nonterminal, h] at hexact

/-- **`FIRST` and nullability are exactly what is derived.** A nonterminal that heads a rule has an
entry. A terminal is in it exactly when the nonterminal derives a form that begins with the terminal,
and the nonterminal is nullable exactly when it derives the empty form. The fresh start symbol and the
nonterminals without rules have no entry and are not nullable. -/
theorem mem_first_iff_derives {defs : List RuleDef} {g : Grammar}
    (h : Grammar.augment defs = .ok g) (n : Nonterminal) :
    ((∃ r ∈ g.inputRules, r.left = n) → ∃ f, (ofGrammar g).get? n = some f ∧
      (∀ t, t ∈ f.terminals ↔
        ∃ rest, Derives g.Expands [.nonterminal n] (.terminal t :: rest)) ∧
      ((ofGrammar g).isNullable n = true ↔ Derives g.Expands [.nonterminal n] [])) ∧
    ((n = .freshStart ∨ ∀ r ∈ g.inputRules, r.left ≠ n) →
      (ofGrammar g).get? n = none ∧ (ofGrammar g).isNullable n = false) := by
  have wf := Grammar.wellFormed_of_augment h
  constructor
  · intro hrule
    obtain ⟨f, hf⟩ := (exists_get?_ofGrammar_iff wf).mpr hrule
    obtain ⟨hbegins, hvanishes⟩ := exact_of_get? wf hf
    refine ⟨f, hf, hbegins, ?_⟩
    simp only [isNullable, hf, Option.any_some]
    exact hvanishes
  · intro hnone
    have hget : (ofGrammar g).get? n = none := by
      rw [Option.eq_none_iff_forall_ne_some]
      intro f hf
      obtain ⟨r, hr, hleft⟩ := (exists_get?_ofGrammar_iff wf).mp ⟨f, hf⟩
      -- heads are nonterminals that were read, and the fresh start symbol was not
      rcases hnone with rfl | hnone
      · exact (wf.hasSymbol_left r hr).1 hleft
      · exact hnone r hr hleft
    exact ⟨hget, by simp [isNullable, hget]⟩

/-- A rule list in which a nonterminal without rules stands in front, and one that can vanish behind it:
what the start symbol derives, and that the fresh start symbol has no entry. -/
theorem mem_first_iff_derives_gap : ∃ g,
    Grammar.augment [⟨"S", ["B", "A", "c"]⟩, ⟨"A", ["a", "A"]⟩, ⟨"A", []⟩] = .ok g ∧
    (∃ r ∈ g.inputRules, r.left = g.start) ∧
    (∃ f, (ofGrammar g).get? g.start = some f ∧
      (∀ t, t ∈ f.terminals ↔
        ∃ rest, Derives g.Expands [.nonterminal g.start] (.terminal t :: rest)) ∧
      ((ofGrammar g).isNullable g.start = true ↔
        Derives g.Expands [.nonterminal g.start] [])) ∧
    (ofGrammar g).get? .freshStart = none ∧ (ofGrammar g).isNullable .freshStart = false := by
  obtain ⟨g, hg⟩ : ∃ g, Grammar.augment
      [⟨"S", ["B", "A", "c"]⟩, ⟨"A", ["a", "A"]⟩, ⟨"A", []⟩] = .ok g :=
    Grammar.exists_augment (by decide) (by unfold RuleDef.IsValid; decide) (by decide) (by decide)
  have haug := Grammar.isAugmentation_of_augment hg
  have hhead : ∃ r ∈ g.inputRules, r.left = g.start := by
    rw [haug.inputRules_eq, List.map_cons]
    refine ⟨_, List.mem_cons_self .., ?_⟩
    rw [haug.start]
    exact congrArg Nonterminal.mk (haug.idxOf_head rfl)
  exact ⟨g, hg, hhead, (mem_first_iff_derives hg g.start).1 hhead,
    (mem_first_iff_derives hg .freshStart).2 (Or.inl rfl)⟩

end FirstSets

end ShiftReduce
