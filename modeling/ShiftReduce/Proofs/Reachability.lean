import ShiftReduce.Derivation
import ShiftReduce.Proofs.Augmentation

/-! # Reachable and productive nonterminals

A nonterminal is reachable when the bodies of rules lead to it from the start symbol, and productive when
it derives a word of terminals. What the start symbol derives has reachable nonterminals only
(`Grammar.isReachable_of_derives`), and a form of productive ones derives a word
(`Grammar.exists_derives_word`). -/

namespace ShiftReduce

/-- What the bodies inherit from the nonterminals that they replace holds of all symbols of a derived
form. -/
theorem Derives.forall_mem {p : Productions} {q : Symbol → Prop}
    (hbody : ∀ n body, p n body → q (.nonterminal n) → ∀ x ∈ body, q x) {a b : List Symbol}
    (h : Derives p a b) (ha : ∀ x ∈ a, q x) : ∀ x ∈ b, q x := by
  induction h with
  | refl => exact ha
  | tail _ hstep ih =>
    obtain ⟨before, after, hp⟩ := hstep
    have hhead := ih _ (List.mem_append_right _ (List.mem_cons_self ..))
    intro x hx
    -- the symbol was there before the step, or it stands in the body
    rcases List.mem_append.mp hx with hx | hx
    · rcases List.mem_append.mp hx with hx | hx
      · exact ih x (List.mem_append_left _ hx)
      · exact hbody _ _ hp hhead x hx
    · exact ih x (List.mem_append_right _ (List.mem_cons_of_mem _ hx))

namespace Grammar

variable {g : Grammar}

/-- The bodies of rules that were read lead from the start symbol to a nonterminal. -/
inductive IsReachable (g : Grammar) : Nonterminal → Prop
  | start : IsReachable g g.start
  | rule {r : Rule} {n : Nonterminal} (h : IsReachable g r.left) (hr : r ∈ g.inputRules)
      (hn : .nonterminal n ∈ r.right.toList) : IsReachable g n

/-- A nonterminal derives a word of terminals. -/
def IsProductive (g : Grammar) (n : Nonterminal) : Prop :=
  ∃ word : List Terminal, Derives g.Produces [.nonterminal n] (word.map .terminal)

/-- **What the start symbol derives has reachable nonterminals only.** -/
theorem isReachable_of_derives {form : List Symbol}
    (h : Derives g.Produces [.nonterminal g.start] form) {n : Nonterminal}
    (hn : .nonterminal n ∈ form) : g.IsReachable n := by
  refine h.forall_mem (q := fun x => ∀ n, x = .nonterminal n → g.IsReachable n) ?_ ?_ _ hn n rfl
  · rintro _ _ ⟨r, hr, rfl, rfl⟩ hleft x hx n rfl
    exact (hleft _ rfl).rule hr hx
  · intro x hx n hxn
    rw [List.mem_singleton] at hx
    rw [← Symbol.nonterminal.inj (hx.symm.trans hxn)]
    exact .start

/-- A derivation brings in symbols of the grammar only. -/
theorem WellFormed.hasSymbol_of_derives (wf : g.WellFormed) {a b : List Symbol}
    (h : Derives g.Produces a b) (ha : ∀ x ∈ a, g.HasSymbol x) : ∀ x ∈ b, g.HasSymbol x := by
  refine h.forall_mem ?_ ha
  rintro _ _ ⟨r, hr, -, rfl⟩ -
  exact wf.hasSymbol_right r hr

/-- **A form of productive nonterminals derives a word.** -/
theorem exists_derives_word {form : List Symbol}
    (h : ∀ n, .nonterminal n ∈ form → g.IsProductive n) :
    ∃ word : List Terminal, Derives g.Produces form (word.map .terminal) := by
  induction form with
  | nil => exact ⟨[], .refl _⟩
  | cons x form ih =>
    obtain ⟨rest, hrest⟩ := ih fun n hn => h n (List.mem_cons_of_mem _ hn)
    have hfirst : ∃ word : List Terminal, Derives g.Produces [x] (word.map .terminal) := by
      cases x with
      | terminal t => exact ⟨[t], .refl _⟩
      | nonterminal n => exact h n (List.mem_cons_self ..)
    obtain ⟨word, hword⟩ := hfirst
    refine ⟨word ++ rest, ?_⟩
    rw [List.map_append]
    exact hword.append hrest

end Grammar

end ShiftReduce
