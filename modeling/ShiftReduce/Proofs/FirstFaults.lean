import ShiftReduce.RuleDef
import Mathlib.Data.List.Basic

/-! # The first fault of a rule list

What the check of a rule list reports, told without running it: a fault of a rule stands behind rules
that have none, and a fault of a symbol stands behind a head and symbols that have none
(`RuleDef.FirstFault`, `firstFault?_eq_some`). -/

namespace ShiftReduce

/-! ## Symbols -/

/-- A name is one uppercase ASCII letter. -/
def IsCapital (name : String) : Prop := ∃ c : Char, name.toList = [c] ∧ 'A' ≤ c ∧ c ≤ 'Z'

/-- **Nonterminals are written as single capitals.** -/
theorem isNonterminalName_iff {name : String} : isNonterminalName name = true ↔ IsCapital name := by
  unfold isNonterminalName
  split
  · next c hc =>
    have hupper : c.isUpper = true ↔ 'A' ≤ c ∧ c ≤ 'Z' := decide_eq_true_iff
    rw [hupper]
    constructor
    · exact fun h => ⟨c, hc, h⟩
    · rintro ⟨c', hc', h⟩
      obtain rfl := List.singleton_injective (hc.symm.trans hc')
      exact h
  · next hlong =>
    constructor
    · intro h
      cases h
    · rintro ⟨c, hc, -⟩
      exact absurd hc (hlong c)

instance (name : String) : Decidable (IsCapital name) := decidable_of_iff _ isNonterminalName_iff

/-- A symbol may stand in a body. -/
def IsBodySymbol (s : String) : Prop := s ≠ "" ∧ s ≠ "$" ∧ s ≠ "ε"

/-- What is reported of a symbol in the body of rule number `k`. -/
inductive SymbolFault (k : Nat) : String → GrammarError → Prop
  /-- the empty name is none -/
  | empty : SymbolFault k "" (.emptySymbol k)
  /-- the end of the input cannot be produced -/
  | endMark : SymbolFault k "$" (.reservedSymbol k "$")
  /-- the empty word is written as an empty body -/
  | emptyMark : SymbolFault k "ε" (.reservedSymbol k "ε")

/-- The fault found in a symbol is the one it has. -/
theorem symbolFault?_eq_some {k : Nat} {s : String} {e : GrammarError} :
    symbolFault? k s = some e ↔ SymbolFault k s e := by
  constructor
  · intro h
    unfold symbolFault? at h
    split at h
    · next hs =>
      cases h
      exact hs ▸ .empty
    · split at h
      · next hs =>
        cases h
        rcases hs with rfl | rfl
        · exact .endMark
        · exact .emptyMark
      · cases h
  · rintro (_ | _ | _) <;> rfl

/-! ## Rules -/

/-- Nothing is wrong with a rule by itself. -/
structure RuleDef.IsFaultless (d : RuleDef) : Prop where
  /-- the head is a nonterminal -/
  head : IsCapital d.head
  /-- all symbols may stand in a body -/
  symbols : ∀ s ∈ d.body, IsBodySymbol s
  /-- the body is not too long -/
  length : d.body.length ≤ 65535

/-- A rule is valid when it has no fault. -/
theorem RuleDef.isValid_iff {d : RuleDef} : d.IsValid ↔ d.IsFaultless :=
  ⟨fun ⟨head, symbols, length⟩ => ⟨isNonterminalName_iff.mp head, symbols, length⟩,
    fun h => ⟨isNonterminalName_iff.mpr h.head, h.symbols, h.length⟩⟩

/-- What is reported of rule number `k`: of its head, or else of the leftmost symbol that has a fault,
or else of its length. -/
inductive RuleDef.FirstFault (k : Nat) (d : RuleDef) : GrammarError → Prop
  /-- the head is no nonterminal -/
  | head (h : ¬ IsCapital d.head) : FirstFault k d (.invalidHead k d.head)
  /-- a symbol has a fault, and what is read before has none -/
  | symbol {before after : List String} {s : String} {e : GrammarError} (head : IsCapital d.head)
      (body : d.body = before ++ s :: after) (fine : ∀ s' ∈ before, IsBodySymbol s')
      (fault : SymbolFault k s e) : FirstFault k d e
  /-- the body is too long, and nothing else is wrong -/
  | length (head : IsCapital d.head) (fine : ∀ s ∈ d.body, IsBodySymbol s)
      (long : 65535 < d.body.length) : FirstFault k d (.tooMany .bodySymbols)

/-- The fault found in a rule is its first. -/
theorem RuleDef.fault?_eq_some {k : Nat} {d : RuleDef} {e : GrammarError} :
    d.fault? k = some e ↔ d.FirstFault k e := by
  unfold RuleDef.fault?
  split
  · next hhead =>
    have hcapital := isNonterminalName_iff.mp hhead
    constructor
    · intro h
      split at h
      · next e' hsymbol =>
        cases h
        obtain ⟨before, s, after, hbody, hs, hbefore⟩ := List.findSome?_eq_some_iff.mp hsymbol
        exact .symbol hcapital hbody (fun s' hs' => symbolFault?_eq_none.mp (hbefore s' hs'))
          (symbolFault?_eq_some.mp hs)
      · next hfine =>
        split at h
        · cases h
        · next hlong =>
          cases h
          have hsymbols := List.findSome?_eq_none_iff.mp hfine
          exact .length hcapital (fun s hs => symbolFault?_eq_none.mp (hsymbols s hs))
            (Nat.lt_of_not_le hlong)
    · rintro (hno | ⟨-, hbody, fine, fault⟩ | ⟨-, fine, long⟩)
      · exact absurd hcapital hno
      · -- what stands before the symbol is passed over
        have hsymbol : d.body.findSome? (symbolFault? k) = some e :=
          List.findSome?_eq_some_iff.mpr ⟨_, _, _, hbody, symbolFault?_eq_some.mpr fault,
            fun s' hs' => symbolFault?_eq_none.mpr (fine s' hs')⟩
        rw [hsymbol]
      · have hsymbols : d.body.findSome? (symbolFault? k) = none :=
          List.findSome?_eq_none_iff.mpr fun s hs => symbolFault?_eq_none.mpr (fine s hs)
        rw [hsymbols]
        exact if_neg (Nat.not_le.mpr long)
  · next hhead =>
    have hno : ¬ IsCapital d.head := fun h => hhead (isNonterminalName_iff.mpr h)
    constructor
    · intro h
      cases h
      exact .head hno
    · rintro (_ | ⟨h, -, -, -⟩ | ⟨h, -, -⟩)
      · rfl
      · exact absurd h hno
      · exact absurd h hno

/-- **The reported fault is that of the first rule that has one.** -/
theorem firstFault?_eq_some {start : Nat} {defs : List RuleDef} {e : GrammarError} :
    firstFault? start defs = some e ↔ ∃ before d after, defs = before ++ d :: after ∧
      (∀ r ∈ before, r.IsFaultless) ∧ d.FirstFault (start + before.length) e := by
  induction defs generalizing start with
  | nil => simp [firstFault?]
  | cons d rest ih =>
    unfold firstFault?
    split
    · next e' hfault =>
      have hfaulty : ¬ d.IsFaultless := fun h => by
        simp [RuleDef.fault?_eq_none.mpr (RuleDef.isValid_iff.mpr h)] at hfault
      constructor
      · intro h
        cases h
        exact ⟨[], d, rest, rfl, by simp, RuleDef.fault?_eq_some.mp hfault⟩
      · rintro ⟨before, d', after, hdefs, fine, fault⟩
        cases before with
        | nil =>
          obtain ⟨rfl, -⟩ := List.cons.inj hdefs
          exact hfault.symm.trans (RuleDef.fault?_eq_some.mpr fault)
        | cons r before =>
          obtain ⟨rfl, -⟩ := List.cons.inj hdefs
          exact absurd (fine d (List.mem_cons_self ..)) hfaulty
    · next hfine =>
      have hfaultless := RuleDef.isValid_iff.mp (RuleDef.fault?_eq_none.mp hfine)
      rw [ih]
      constructor
      · rintro ⟨before, d', after, rfl, fine, fault⟩
        refine ⟨d :: before, d', after, rfl, List.forall_mem_cons.mpr ⟨hfaultless, fine⟩, ?_⟩
        rwa [List.length_cons, ← Nat.add_assoc, Nat.add_right_comm]
      · rintro ⟨before, d', after, hdefs, fine, fault⟩
        cases before with
        | nil =>
          obtain ⟨rfl, -⟩ := List.cons.inj hdefs
          cases hfine.symm.trans (RuleDef.fault?_eq_some.mpr fault)
        | cons r before =>
          obtain ⟨rfl, rfl⟩ := List.cons.inj hdefs
          refine ⟨before, d', after, rfl, (List.forall_mem_cons.mp fine).2, ?_⟩
          rwa [List.length_cons, ← Nat.add_assoc, Nat.add_right_comm] at fault

/-- The head is looked at before the body, and a symbol before those behind it. -/
example : firstFault? 0 [⟨"S", ["a", "S"]⟩, ⟨"S", ["b", "ε", ""]⟩, ⟨"s", ["$"]⟩] =
    some (.reservedSymbol 1 "ε") := by
  decide

end ShiftReduce
