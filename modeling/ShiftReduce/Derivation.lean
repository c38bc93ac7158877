import ShiftReduce.Grammar

/-! # Derivations

What the rules derive, independently of any table. `g.Produces` holds of the rules that were read;
`g.Expands` also lets a nonterminal without rules vanish, which is how the `FIRST` and `FOLLOW` sets
treat it. -/

namespace ShiftReduce

/-- Which sequences of symbols each nonterminal can be replaced by. -/
abbrev Productions := Nonterminal → List Symbol → Prop

/-- A rule that was read replaces `n` by `body`. -/
def Grammar.Produces (g : Grammar) : Productions := fun n body =>
  ∃ r ∈ g.inputRules, r.left = n ∧ r.right.toList = body

/-- A rule that was read replaces `n` by `body`, or `n` has no rules and vanishes. -/
def Grammar.Expands (g : Grammar) : Productions := fun n body =>
  g.Produces n body ∨ g.isDefined n = false ∧ body = []

/-! ## Steps -/

/-- One nonterminal is replaced. -/
inductive Replaces (p : Productions) : List Symbol → List Symbol → Prop
  | of_rule {n : Nonterminal} {body : List Symbol} (before after : List Symbol) (h : p n body) :
      Replaces p (before ++ .nonterminal n :: after) (before ++ body ++ after)

/-- The last nonterminal is replaced. -/
inductive ReplacesLast (p : Productions) : List Symbol → List Symbol → Prop
  | of_rule {n : Nonterminal} {body : List Symbol} (before : List Symbol) (after : List Terminal)
      (h : p n body) :
      ReplacesLast p (before ++ .nonterminal n :: after.map .terminal)
        (before ++ body ++ after.map .terminal)

/-! ## Sequences of steps -/

/-- The rule with a number, which was read, replaces `n` by `body`. -/
def Grammar.ProducesBy (g : Grammar) (rule : Nat) : Productions := fun n body =>
  rule ≠ 0 ∧ ∃ r, g.rule? rule = some r ∧ r.left = n ∧ r.right.toList = body

/-- Rules that were read replace the last nonterminal, one after the other. -/
inductive RightmostBy (g : Grammar) : List Symbol → List Nat → List Symbol → Prop
  | refl (form : List Symbol) : RightmostBy g form [] form
  | head {first form last : List Symbol} {rule : Nat} {rules : List Nat}
      (step : ReplacesLast (g.ProducesBy rule) first form) (h : RightmostBy g form rules last) :
      RightmostBy g first (rule :: rules) last

/-- Any number of nonterminals are replaced, one after the other. -/
inductive Derives (p : Productions) : List Symbol → List Symbol → Prop
  | refl (form : List Symbol) : Derives p form form
  | tail {first form last : List Symbol} (h : Derives p first form) (step : Replaces p form last) :
      Derives p first last

namespace Derives

variable {p : Productions}

/-- Derivations are put one behind the other. -/
theorem trans {a b c : List Symbol} (hab : Derives p a b) (hbc : Derives p b c) :
    Derives p a c := by
  induction hbc with
  | refl => exact hab
  | tail _ step ih => exact ih.tail step

/-- A derivation also takes place in a context. -/
theorem context {a b : List Symbol} (before after : List Symbol) (h : Derives p a b) :
    Derives p (before ++ a ++ after) (before ++ b ++ after) := by
  induction h with
  | refl => exact .refl _
  | tail _ step ih =>
    obtain ⟨inner, outer, hp⟩ := step
    refine ih.tail ?_
    simpa using Replaces.of_rule (before ++ inner) (outer ++ after) hp

/-- A rule derives its body from its head. -/
theorem of_production {n : Nonterminal} {body : List Symbol} (h : p n body) :
    Derives p [.nonterminal n] body := by
  simpa using (refl [.nonterminal n]).tail (Replaces.of_rule [] [] h)

/-- Derivations of two forms derive them side by side. -/
theorem append {a b c d : List Symbol} (hab : Derives p a b) (hcd : Derives p c d) :
    Derives p (a ++ c) (b ++ d) := by
  have left := hab.context [] c
  have right := hcd.context b []
  simp only [List.nil_append, List.append_nil] at left right
  exact left.trans right

end Derives

end ShiftReduce
