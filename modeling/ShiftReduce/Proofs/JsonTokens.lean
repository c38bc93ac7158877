import Mathlib.Tactic.SplitIfs
import ShiftReduce.Proofs.JsonLexer

/-! # What the lexer accepts

Whatever the lexer cuts into tokens consists of spellings of these tokens, with blanks before them
(`Json.tokenText_of_tokens?`). What may still come of a token is told from the part of it that is read
(`Json.Pending.Rest`), and a character that is read is the first one of what may come. -/

namespace ShiftReduce.Json

/-! ## Texts of tokens -/

/-- A spelling of a token. -/
inductive IsToken : Token → List Char → Prop
  /-- an opening square bracket -/
  | openArray : IsToken .openArray ['[']
  /-- a closing square bracket -/
  | closeArray : IsToken .closeArray [']']
  /-- an opening curly bracket -/
  | openObject : IsToken .openObject ['\x7b']
  /-- a closing curly bracket -/
  | closeObject : IsToken .closeObject ['\x7d']
  /-- a comma -/
  | comma : IsToken .comma [',']
  /-- a colon -/
  | colon : IsToken .colon [':']
  /-- the word `null` -/
  | null : IsToken .null ['n', 'u', 'l', 'l']
  /-- the word `true` -/
  | true : IsToken (.bool true) ['t', 'r', 'u', 'e']
  /-- the word `false` -/
  | false : IsToken (.bool false) ['f', 'a', 'l', 's', 'e']
  /-- a number -/
  | number {cs : List Char} : IsNumber cs → IsToken (.number (String.ofList cs)) cs
  /-- a string literal -/
  | string {l : Literal} {cs : List Char} : IsString l cs → IsToken (.string l) cs

/-- Spellings of tokens, one behind the other, with blanks before them. -/
inductive TokenText : List Token → List Char → Prop
  /-- no token -/
  | nil {b : List Char} : IsBlank b → TokenText [] b
  /-- a token and the others -/
  | cons {b cs ds : List Char} {t : Token} {ts : List Token} : IsBlank b → IsToken t cs →
    TokenText ts ds → TokenText (t :: ts) (b ++ (cs ++ ds))

/-- One more blank. -/
theorem TokenText.blank_cons {ts : List Token} {cs : List Char} (h : TokenText ts cs) {c : Char}
    (hc : c = ' ' ∨ c = '\t' ∨ c = '\n' ∨ c = '\r') : TokenText ts (c :: cs) := by
  cases h with
  | nil hb => exact .nil (List.forall_mem_cons.mpr ⟨hc, hb⟩)
  | @cons b cs ds t ts hb ht hts => exact .cons (b := c :: b) (List.forall_mem_cons.mpr ⟨hc, hb⟩) ht hts

/-! ## Numbers -/

namespace NumberPart

/-- What may come in a number behind a character of a part. -/
def Rest : NumberPart → List Char → Prop
  | .minus, cs => ∃ whole fraction exponent, IsWhole whole ∧ IsFraction fraction ∧
    IsExponent exponent ∧ cs = whole ++ (fraction ++ exponent)
  | .zero, cs => ∃ fraction exponent, IsFraction fraction ∧ IsExponent exponent ∧
    cs = fraction ++ exponent
  | .whole, cs => ∃ digits fraction exponent, (∀ d ∈ digits, d.isDigit = true) ∧
    IsFraction fraction ∧ IsExponent exponent ∧ cs = digits ++ (fraction ++ exponent)
  | .point, cs => ∃ digits exponent, IsDigits digits ∧ IsExponent exponent ∧
    cs = digits ++ exponent
  | .fraction, cs => ∃ digits exponent, (∀ d ∈ digits, d.isDigit = true) ∧ IsExponent exponent ∧
    cs = digits ++ exponent
  | .exponentMark, cs => ∃ sign digits, (sign = [] ∨ sign = ['+'] ∨ sign = ['-']) ∧
    IsDigits digits ∧ cs = sign ++ digits
  | .exponentSign, cs => IsDigits cs
  | .exponent, cs => ∀ d ∈ cs, d.isDigit = true

variable {part part' : NumberPart} {c : Char} {cs : List Char}

/-- Where a number may end, nothing has to come. -/
theorem rest_nil (h : part.isFinal = true) : part.Rest [] := by
  cases part with
  | zero => exact ⟨[], [], .absent, .absent, rfl⟩
  | whole => exact ⟨[], [], [], fun _ hd => absurd hd List.not_mem_nil, .absent, .absent, rfl⟩
  | fraction => exact ⟨[], [], fun _ hd => absurd hd List.not_mem_nil, .absent, rfl⟩
  | exponent => exact fun _ hd => absurd hd List.not_mem_nil
  | minus => cases h
  | point => cases h
  | exponentMark => cases h
  | exponentSign => cases h

/-- A digit in front of digits makes digits. -/
theorem isDigits_cons (hc : c.isDigit = true) (h : ∀ d ∈ cs, d.isDigit = true) : IsDigits (c :: cs) :=
  ⟨List.cons_ne_nil _ _, List.forall_mem_cons.mpr ⟨hc, h⟩⟩

/-- Behind the digits before the point come a fraction and an exponent. -/
theorem rest_of_afterWhole? (h : afterWhole? c = some part') (hrest : part'.Rest cs) :
    Rest .zero (c :: cs) := by
  unfold afterWhole? at h
  split_ifs at h with hpoint hmark
  · cases h
    obtain ⟨digits, exponent, hdigits, hexponent, rfl⟩ := hrest
    exact ⟨'.' :: digits, exponent, .digits hdigits, hexponent, by rw [hpoint]; rfl⟩
  · cases h
    obtain ⟨sign, digits, hsign, hdigits, rfl⟩ := hrest
    exact ⟨[], _, .absent, .digits hmark hsign hdigits, rfl⟩

/-- **A character that is read in a number is the first one of what may come.** -/
theorem rest_of_next? (h : part.next? c = some part') (hrest : part'.Rest cs) :
    part.Rest (c :: cs) := by
  cases part with
  | minus =>
    simp only [next?] at h
    split_ifs at h with hzero hdigit
    · cases h
      obtain ⟨fraction, exponent, hfraction, hexponent, rfl⟩ := hrest
      exact ⟨['0'], fraction, exponent, .zero, hfraction, hexponent, by rw [hzero]; rfl⟩
    · cases h
      obtain ⟨digits, fraction, exponent, hdigits, hfraction, hexponent, rfl⟩ := hrest
      exact ⟨c :: digits, fraction, exponent, .digits hzero hdigit hdigits, hfraction, hexponent, rfl⟩
  | zero => exact rest_of_afterWhole? h hrest
  | whole =>
    simp only [next?] at h
    split_ifs at h with hdigit
    · cases h
      obtain ⟨digits, fraction, exponent, hdigits, hfraction, hexponent, rfl⟩ := hrest
      exact ⟨c :: digits, fraction, exponent, List.forall_mem_cons.mpr ⟨hdigit, hdigits⟩, hfraction,
        hexponent, rfl⟩
    · obtain ⟨fraction, exponent, hfraction, hexponent, heq⟩ := rest_of_afterWhole? h hrest
      exact ⟨[], fraction, exponent, fun _ hd => absurd hd List.not_mem_nil, hfraction, hexponent, heq⟩
  | point =>
    simp only [next?] at h
    split_ifs at h with hdigit
    cases h
    obtain ⟨digits, exponent, hdigits, hexponent, rfl⟩ := hrest
    exact ⟨c :: digits, exponent, isDigits_cons hdigit hdigits, hexponent, rfl⟩
  | fraction =>
    simp only [next?] at h
    split_ifs at h with hdigit hmark
    · cases h
      obtain ⟨digits, exponent, hdigits, hexponent, rfl⟩ := hrest
      exact ⟨c :: digits, exponent, List.forall_mem_cons.mpr ⟨hdigit, hdigits⟩, hexponent, rfl⟩
    · cases h
      obtain ⟨sign, digits, hsign, hdigits, rfl⟩ := hrest
      exact ⟨[], _, fun _ hd => absurd hd List.not_mem_nil, .digits hmark hsign hdigits, rfl⟩
  | exponentMark =>
    simp only [next?] at h
    split_ifs at h with hsign hdigit
    · cases h
      refine ⟨[c], cs, Or.inr ?_, hrest, rfl⟩
      rcases hsign with rfl | rfl
      · exact Or.inl rfl
      · exact Or.inr rfl
    · cases h
      exact ⟨[], c :: cs, Or.inl rfl, isDigits_cons hdigit hrest, rfl⟩
  | exponentSign =>
    simp only [next?] at h
    split_ifs at h with hdigit
    cases h
    exact isDigits_cons hdigit hrest
  | exponent =>
    simp only [next?] at h
    split_ifs at h with hdigit
    cases h
    exact List.forall_mem_cons.mpr ⟨hdigit, hrest⟩

/-- A character with which a number begins and what may come behind it are a number. -/
theorem isNumber_of_ofFirst? (h : ofFirst? c = some part) (hrest : part.Rest cs) :
    IsNumber (c :: cs) := by
  unfold ofFirst? at h
  split_ifs at h with hminus hzero hdigit
  · cases h
    obtain ⟨whole, fraction, exponent, hwhole, hfraction, hexponent, rfl⟩ := hrest
    rw [hminus]
    exact .intro (Or.inr rfl) hwhole hfraction hexponent
  · cases h
    obtain ⟨fraction, exponent, hfraction, hexponent, rfl⟩ := hrest
    rw [hzero]
    exact .intro (Or.inl rfl) .zero hfraction hexponent
  · cases h
    obtain ⟨digits, fraction, exponent, hdigits, hfraction, hexponent, rfl⟩ := hrest
    exact .intro (Or.inl rfl) (.digits hzero hdigit hdigits) hfraction hexponent

end NumberPart

/-! ## Escapes -/

/-- Every short escape the lexer takes is one of the format's. -/
theorem mem_escapes_of_simpleEscape? {c d : Char} (h : Lexer.simpleEscape? c = some d) :
    (c, d) ∈ escapes := by
  unfold Lexer.simpleEscape? at h
  split_ifs at h with hsame hb hf hn hr ht
  · cases h
    rcases hsame with rfl | rfl | rfl
    all_goals decide
  all_goals
    cases h
    subst c
    decide

/-- What the lexer finds a value for is a hexadecimal digit of that value. -/
theorem isHexDigit_of_hexValue? {c : Char} {d : Nat} (h : Lexer.hexValue? c = some d) :
    IsHexDigit c d := by
  have hdigit : ∀ i : Fin 10, "0123456789abcdef".toList[i.val]? = some (Char.ofNat (48 + i)) := by
    decide
  have hlower : ∀ i : Fin 6, "0123456789abcdef".toList[i.val + 10]? = some (Char.ofNat (97 + i)) := by
    decide
  have hupper : ∀ i : Fin 6, "0123456789ABCDEF".toList[i.val + 10]? = some (Char.ofNat (65 + i)) := by
    decide
  -- a character in a range of digits is the one at its distance from the first
  have hrange {first last : Char} {n : Nat} (hc : first ≤ c ∧ c ≤ last)
      (hn : last.toNat < first.toNat + n) :
      c.toNat - first.toNat < n ∧ Char.ofNat (first.toNat + (c.toNat - first.toNat)) = c := by
    have hle : first.toNat ≤ c.toNat := hc.1
    have hge : c.toNat ≤ last.toNat := hc.2
    exact ⟨by omega, by rw [Nat.add_sub_cancel' hle, Char.ofNat_toNat]⟩
  unfold Lexer.hexValue? at h
  split_ifs at h with h₀ h₁ h₂
  · cases h
    obtain ⟨hlt, hc⟩ := hrange h₀ (n := 10) (by decide)
    exact Or.inl ((hdigit ⟨_, hlt⟩).trans (congrArg some hc))
  · cases h
    obtain ⟨hlt, hc⟩ := hrange h₁ (n := 6) (by decide)
    exact Or.inl ((hlower ⟨_, hlt⟩).trans (congrArg some hc))
  · cases h
    obtain ⟨hlt, hc⟩ := hrange h₂ (n := 6) (by decide)
    exact Or.inr ((hupper ⟨_, hlt⟩).trans (congrArg some hc))

/-- Hexadecimal digits of which `left` are still to come, with the number that they make out of the one so
far. -/
inductive IsUnitRest : Nat → Nat → List Char → Nat → Prop
  /-- the last digit -/
  | last {left value d : Nat} {c : Char} : left ≤ 1 → IsHexDigit c d →
    IsUnitRest left value [c] (16 * value + d)
  /-- a digit before others -/
  | more {left value unit d : Nat} {c : Char} {cs : List Char} : ¬left ≤ 1 → IsHexDigit c d →
    IsUnitRest (left - 1) (16 * value + d) cs unit → IsUnitRest left value (c :: cs) unit

/-- Four digits from zero on are a code unit. -/
theorem isPiece_of_isUnitRest {cs : List Char} {unit : Nat} (h : IsUnitRest 4 0 cs unit) :
    IsPiece (.unit unit) ('\\' :: 'u' :: cs) := by
  obtain ⟨h₀⟩ | ⟨-, h₁, h⟩ := h
  · omega
  obtain ⟨h₀⟩ | ⟨-, h₂, h⟩ := h
  · omega
  obtain ⟨h₀⟩ | ⟨-, h₃, h⟩ := h
  · omega
  obtain ⟨-, h₄⟩ | ⟨h₀, -, -⟩ := h
  · simpa using IsPiece.unit h₁ h₂ h₃ h₄
  · omega

/-! ## The rest of a token -/

/-- What may come of an incomplete token, with the token that it makes. -/
inductive Pending.Rest : Pending → Token → List Char → Prop
  /-- the rest of a word -/
  | word {cs : List Char} {t : Token} : Rest (.word cs t) t cs
  /-- the rest of a number -/
  | number {part : NumberPart} {read cs : List Char} : part.Rest cs →
    Rest (.number part read) (Lexer.numberToken (cs.reverse ++ read)) cs
  /-- more parts of a string literal and a quote -/
  | string {read : List Piece} {l : Literal} {cs : List Char} : IsPieces l cs →
    Rest (.string read) (.string (read.reverse ++ l)) (cs ++ ['"'])
  /-- what is behind a backslash, and then the rest of the string literal -/
  | escape {read : List Piece} {p : Piece} {l : Literal} {cs ds : List Char} :
    IsPiece p ('\\' :: cs) → IsPieces l ds →
    Rest (.escape read) (.string (read.reverse ++ p :: l)) (cs ++ (ds ++ ['"']))
  /-- more digits of a code unit, and then the rest of the string literal -/
  | unit {read : List Piece} {left value unit : Nat} {l : Literal} {cs ds : List Char} :
    IsUnitRest left value cs unit → IsPieces l ds →
    Rest (.unit read left value) (.string (read.reverse ++ .unit unit :: l)) (cs ++ (ds ++ ['"']))

namespace Lexer

variable {tokens : List Token} {p : Pending} {l : Lexer} {c : Char}

/-- **What the lexer does where a token may begin**: it skips a blank, reads a mark, or begins a longer
token. -/
theorem begin?_cases (h : begin? tokens c = some l) :
    (l = ⟨tokens, .nothing⟩ ∧ (c = ' ' ∨ c = '\t' ∨ c = '\n' ∨ c = '\r')) ∨
    (∃ t, l = ⟨t :: tokens, .nothing⟩ ∧ IsToken t [c]) ∨
    ∃ p, l = ⟨tokens, p⟩ ∧ p ≠ .nothing ∧ ∀ t cs, p.Rest t cs → IsToken t (c :: cs) := by
  unfold begin? at h
  split at h
  case h_1 | h_2 | h_3 | h_4 =>
    cases h
    exact Or.inl ⟨rfl, by decide⟩
  case h_5 => exact Or.inr (Or.inl ⟨_, (Option.some.inj h).symm, .openArray⟩)
  case h_6 => exact Or.inr (Or.inl ⟨_, (Option.some.inj h).symm, .closeArray⟩)
  case h_7 => exact Or.inr (Or.inl ⟨_, (Option.some.inj h).symm, .openObject⟩)
  case h_8 => exact Or.inr (Or.inl ⟨_, (Option.some.inj h).symm, .closeObject⟩)
  case h_9 => exact Or.inr (Or.inl ⟨_, (Option.some.inj h).symm, .comma⟩)
  case h_10 => exact Or.inr (Or.inl ⟨_, (Option.some.inj h).symm, .colon⟩)
  case h_11 =>
    refine Or.inr (Or.inr ⟨_, (Option.some.inj h).symm, Pending.noConfusion, ?_⟩)
    rintro _ _ (_ | _ | hpieces)
    exact .string (.intro hpieces)
  case h_12 =>
    refine Or.inr (Or.inr ⟨_, (Option.some.inj h).symm, Pending.noConfusion, ?_⟩)
    rintro _ _ ⟨⟩
    exact .null
  case h_13 =>
    refine Or.inr (Or.inr ⟨_, (Option.some.inj h).symm, Pending.noConfusion, ?_⟩)
    rintro _ _ ⟨⟩
    exact .true
  case h_14 =>
    refine Or.inr (Or.inr ⟨_, (Option.some.inj h).symm, Pending.noConfusion, ?_⟩)
    rintro _ _ ⟨⟩
    exact .false
  case h_15 =>
    obtain ⟨part, hpart, rfl⟩ := Option.map_eq_some_iff.mp h
    refine Or.inr (Or.inr ⟨_, rfl, Pending.noConfusion, ?_⟩)
    rintro _ cs (_ | hrest)
    have htoken : numberToken (cs.reverse ++ [c]) = .number (String.ofList (c :: cs)) := by
      simp [numberToken]
    rw [htoken]
    exact .number (NumberPart.isNumber_of_ofFirst? hpart hrest)

/-- **What the lexer does with a character**: it begins a token, completes one, goes on with one, or begins
another one behind a number that ends. -/
theorem push?_cases (h : push? ⟨tokens, p⟩ c = some l) :
    (p = .nothing ∧ begin? tokens c = some l) ∨
    (∃ t, l = ⟨t :: tokens, .nothing⟩ ∧ p.Rest t [c]) ∨
    (∃ p', l = ⟨tokens, p'⟩ ∧ p' ≠ .nothing ∧ ∀ t cs, p'.Rest t cs → p.Rest t (c :: cs)) ∨
    ∃ t, p.Rest t [] ∧ begin? (t :: tokens) c = some l := by
  cases p with
  | nothing => exact Or.inl ⟨rfl, h⟩
  | word rest token =>
    refine Or.inr ?_
    cases rest with
    | nil => cases h
    | cons d rest =>
      simp only [push?] at h
      split_ifs at h with hc hrest
      · cases h
        rw [Decidable.not_not.mp hc, List.isEmpty_iff.mp hrest]
        exact Or.inl ⟨_, rfl, .word⟩
      · cases h
        refine Or.inr (Or.inl ⟨_, rfl, Pending.noConfusion, ?_⟩)
        rintro _ _ ⟨⟩
        rw [Decidable.not_not.mp hc]
        exact .word
  | number part read =>
    refine Or.inr (Or.inr ?_)
    simp only [push?] at h
    split at h
    · next part' hpart =>
      cases h
      refine Or.inl ⟨_, rfl, Pending.noConfusion, ?_⟩
      rintro _ cs (_ | hrest)
      have htoken : cs.reverse ++ c :: read = (c :: cs).reverse ++ read := by simp
      rw [htoken]
      exact .number (NumberPart.rest_of_next? hpart hrest)
    · split_ifs at h with hfinal
      exact Or.inr ⟨_, .number (NumberPart.rest_nil hfinal), h⟩
  | string read =>
    refine Or.inr ?_
    simp only [push?] at h
    split_ifs at h with hquote hbackslash hcontrol
    · cases h
      rw [hquote]
      have htoken : Pending.Rest (.string read) _ _ := .string .nil
      rw [List.append_nil] at htoken
      exact Or.inl ⟨_, rfl, htoken⟩
    · cases h
      refine Or.inr (Or.inl ⟨_, rfl, Pending.noConfusion, ?_⟩)
      rintro _ _ (_ | _ | _ | ⟨hpiece, hpieces⟩)
      rw [hbackslash]
      have htoken : Pending.Rest (.string read) _ _ := .string (.cons hpiece hpieces)
      rwa [List.append_assoc] at htoken
    · cases h
      refine Or.inr (Or.inl ⟨_, rfl, Pending.noConfusion, ?_⟩)
      rintro _ _ (_ | _ | hpieces)
      have hpiece : IsPiece (.char c) [c] := .plain hquote hbackslash (Nat.le_of_not_lt hcontrol)
      have htoken : Pending.Rest (.string read) _ _ := .string (.cons hpiece hpieces)
      simpa using htoken
  | escape read =>
    refine Or.inr (Or.inr (Or.inl ?_))
    simp only [push?] at h
    split_ifs at h with hunit
    · cases h
      refine ⟨_, rfl, Pending.noConfusion, ?_⟩
      rintro _ _ (_ | _ | _ | _ | ⟨hunitRest, hpieces⟩)
      rw [hunit]
      exact .escape (isPiece_of_isUnitRest hunitRest) hpieces
    · obtain ⟨d, hd, rfl⟩ := Option.map_eq_some_iff.mp h
      refine ⟨_, rfl, Pending.noConfusion, ?_⟩
      rintro _ _ (_ | _ | hpieces)
      have htoken : Pending.Rest (.escape read) _ _ :=
        .escape (.escaped (mem_escapes_of_simpleEscape? hd)) hpieces
      simpa using htoken
  | unit read left value =>
    refine Or.inr (Or.inr (Or.inl ?_))
    obtain ⟨d, hd, rfl⟩ := Option.map_eq_some_iff.mp h
    have hdigit := isHexDigit_of_hexValue? hd
    by_cases hleft : left ≤ 1
    · rw [if_pos hleft]
      refine ⟨_, rfl, Pending.noConfusion, ?_⟩
      rintro _ _ (_ | _ | hpieces)
      have hunitRest : IsUnitRest left value [c] (16 * value + d) := .last hleft hdigit
      have htoken : Pending.Rest (.unit read left value) _ _ := .unit hunitRest hpieces
      simpa using htoken
    · rw [if_neg hleft]
      refine ⟨_, rfl, Pending.noConfusion, ?_⟩
      rintro _ _ (_ | _ | _ | _ | ⟨hunitRest, hpieces⟩)
      exact .unit (.more hleft hdigit hunitRest) hpieces

end Lexer

/-! ## The rest of a text -/

/-- What may come of a text, with the tokens that it makes: the rest of the incomplete token, and then
others. -/
inductive Pending.Completes : Pending → List Token → List Char → Prop
  /-- no token has begun -/
  | nothing {ts : List Token} {cs : List Char} : TokenText ts cs → Completes .nothing ts cs
  /-- a token has begun -/
  | token {p : Pending} {t : Token} {ts : List Token} {cs ds : List Char} : p.Rest t cs →
    TokenText ts ds → Completes p (t :: ts) (cs ++ ds)

/-- A token that goes on with a character may begin with it. -/
theorem Pending.Completes.cons {p p' : Pending} {ts : List Token} {c : Char} {cs : List Char}
    (h : p'.Completes ts cs) (hp' : p' ≠ .nothing)
    (hrest : ∀ t ds, p'.Rest t ds → p.Rest t (c :: ds)) : p.Completes ts (c :: cs) := by
  cases h with
  | nothing => exact absurd rfl hp'
  | token ht hts => exact .token (hrest _ _ ht) hts

namespace Lexer

/-- All tokens of a text of which the lexer has read the begin: those that it has, and those of the rest. -/
def Denotes (l : Lexer) (tokens : List Token) (cs : List Char) : Prop :=
  ∃ ts, tokens = l.tokens.reverse ++ ts ∧ l.pending.Completes ts cs

variable {l l' : Lexer} {tokens all : List Token} {c : Char} {cs : List Char}

/-- Where the lexer may stop, the rest is empty. -/
theorem denotes_of_finish? (h : l.finish? = some all) : l.Denotes all [] := by
  obtain ⟨tokens, p⟩ := l
  cases p with
  | nothing =>
    cases h
    exact ⟨[], (List.append_nil _).symm, .nothing (.nil isBlank_nil)⟩
  | number part read =>
    simp only [finish?] at h
    split_ifs at h with hfinal
    cases h
    exact ⟨[numberToken read], List.reverse_cons,
      .token (.number (NumberPart.rest_nil hfinal)) (.nil isBlank_nil)⟩
  | word rest token => cases h
  | string read => cases h
  | escape read => cases h
  | unit read left value => cases h

/-- A character with which a token may begin is the first one of the rest. -/
theorem tokenText_of_begin? (h : begin? tokens c = some l) (hl : l.Denotes all cs) :
    ∃ ts, all = tokens.reverse ++ ts ∧ TokenText ts (c :: cs) := by
  obtain ⟨ts, rfl, hts⟩ := hl
  rcases begin?_cases h with ⟨rfl, hblank⟩ | ⟨t, rfl, ht⟩ | ⟨p, rfl, hp, hrest⟩
  · obtain hts | ⟨⟨⟩, -⟩ := hts
    exact ⟨ts, rfl, hts.blank_cons hblank⟩
  · obtain hts | ⟨⟨⟩, -⟩ := hts
    refine ⟨t :: ts, ?_, .cons isBlank_nil ht hts⟩
    rw [List.reverse_cons, List.append_assoc]
    rfl
  · cases hts with
    | nothing => exact absurd rfl hp
    | token ht hts => exact ⟨_, rfl, .cons isBlank_nil (hrest _ _ ht) hts⟩

/-- **A character that is read is the first one of the rest.** -/
theorem denotes_of_push? (h : l.push? c = some l') (hl' : l'.Denotes all cs) :
    l.Denotes all (c :: cs) := by
  obtain ⟨tokens, p⟩ := l
  rcases push?_cases h with ⟨rfl, hbegin⟩ | ⟨t, rfl, ht⟩ | ⟨p', rfl, hp', hrest⟩ | ⟨t, ht, hbegin⟩
  · obtain ⟨ts, hall, hts⟩ := tokenText_of_begin? hbegin hl'
    exact ⟨ts, hall, .nothing hts⟩
  · obtain ⟨ts, rfl, hts | ⟨⟨⟩, -⟩⟩ := hl'
    refine ⟨t :: ts, ?_, .token ht hts⟩
    rw [List.reverse_cons, List.append_assoc]
    rfl
  · obtain ⟨ts, hall, hts⟩ := hl'
    exact ⟨ts, hall, hts.cons hp' hrest⟩
  · obtain ⟨ts, hall, hts⟩ := tokenText_of_begin? hbegin hl'
    refine ⟨t :: ts, ?_, .token ht hts⟩
    rw [hall, List.reverse_cons, List.append_assoc]
    rfl

/-- What is read up to where the lexer may stop is the rest. -/
theorem denotes_of_foldlM (h : cs.foldlM push? l = some l') (hl' : l'.finish? = some all) :
    l.Denotes all cs := by
  induction cs generalizing l with
  | nil =>
    cases h
    exact denotes_of_finish? hl'
  | cons c cs ih =>
    obtain ⟨l₁, hpush, hrest⟩ := Option.bind_eq_some_iff.mp h
    exact denotes_of_push? hpush (ih hrest)

end Lexer

/-- **Whatever is cut into tokens consists of their spellings.** -/
theorem tokenText_of_tokens? {text : String} {ts : List Token} (h : tokens? text = some ts) :
    TokenText ts text.toList := by
  obtain ⟨l, hl, hfinish⟩ := Option.bind_eq_some_iff.mp h
  obtain ⟨us, rfl, hus⟩ := Lexer.denotes_of_foldlM hl hfinish
  generalize text.toList = cs at hus
  obtain hus | ⟨⟨⟩, -⟩ := hus
  exact hus

end ShiftReduce.Json
