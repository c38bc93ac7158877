import ShiftReduce.Proofs.JsonGrammar

/-! # The lexer reads the tokens of a text

Every text of the grammar is cut into the tokens of its value (`Json.IsElement.lexesTo`). Only a number does
not tell by itself where it ends, so behind a text the lexer may still be in a number
(`Json.Lexer.Holds`); a blank or a mark ends it. -/

namespace ShiftReduce.Json

/-! ## Tokens -/

mutual

/-- The tokens of a value. -/
def tokensOf : Json Literal → List Token
  | .null => [.null]
  | .bool b => [.bool b]
  | .number digits => [.number digits]
  | .string s => [.string s]
  | .array elements => .openArray :: (elementTokens elements ++ [.closeArray])
  | .object members => .openObject :: (memberTokens members ++ [.closeObject])

/-- The tokens of elements, with commas between them. -/
def elementTokens : List (Json Literal) → List Token
  | [] => []
  | [v] => tokensOf v
  | v :: rest => tokensOf v ++ .comma :: elementTokens rest

/-- The tokens of members, with commas between them. -/
def memberTokens : List (Literal × Json Literal) → List Token
  | [] => []
  | [(k, v)] => .string k :: .colon :: tokensOf v
  | (k, v) :: rest => .string k :: .colon :: (tokensOf v ++ .comma :: memberTokens rest)

end

/-! ## Runs over lists -/

section Runs

variable {α β : Type} {f : β → α → Option β} {a : α} {b b' : β} {l l' : List α}

/-- A run over a list goes on behind its first element. -/
theorem foldlM_cons_eq (h : f b a = some b') : (a :: l).foldlM f b = l.foldlM f b' := by
  rw [List.foldlM_cons, h]
  rfl

/-- A run over two lists is one over the first and then one over the second. -/
theorem foldlM_append_eq (h : l.foldlM f b = some b') : (l ++ l').foldlM f b = l'.foldlM f b' := by
  rw [List.foldlM_append, h]
  rfl

end Runs

/-! ## What the lexer has read -/

namespace Lexer

/-- Some tokens have been read. The last one may be a number that might still go on. -/
inductive Holds : Lexer → List Token → Prop
  /-- no token has begun -/
  | done (tokens : List Token) : Holds ⟨tokens, .nothing⟩ tokens
  /-- the last token is a number -/
  | number (tokens : List Token) {part : NumberPart} (read : List Char) : part.isFinal = true →
    Holds ⟨tokens, .number part read⟩ (numberToken read :: tokens)

/-- The character can be no part of a number but the first one. -/
def EndsNumber (c : Char) : Prop := ∀ part : NumberPart, part.next? c = none

variable {l : Lexer} {tokens : List Token} {c : Char}

/-- At the end of the text a lexer gives the tokens it holds, in reading order. -/
theorem Holds.finish? (h : l.Holds tokens) : l.finish? = some tokens.reverse := by
  cases h with
  | done => rfl
  | number tokens read hfinal => simp [Lexer.finish?, hfinal]

/-- A character that ends a number is read as if no token had begun. -/
theorem Holds.push? (h : l.Holds tokens) (hc : EndsNumber c) : l.push? c = begin? tokens c := by
  cases h with
  | done => rfl
  | number tokens read hfinal => simp [Lexer.push?, hc _, hfinal]

end Lexer

/-- A text that ends where a token ends is cut into some tokens. -/
def Lexes (cs : List Char) (ts : List Token) : Prop :=
  ∀ tokens, cs.foldlM Lexer.push? ⟨tokens, .nothing⟩ = some ⟨ts.reverse ++ tokens, .nothing⟩

/-- A text is cut into some tokens, of which the last one may be a number that might still go on. -/
def LexesTo (cs : List Char) (ts : List Token) : Prop :=
  ∀ tokens, ∃ l, cs.foldlM Lexer.push? ⟨tokens, .nothing⟩ = some l ∧ l.Holds (ts.reverse ++ tokens)

section Lexes

variable {cs ds : List Char} {ts us : List Token}

/-- A text read with nothing left over needs no character behind it to end. -/
theorem Lexes.lexesTo (h : Lexes cs ts) : LexesTo cs ts := fun tokens => ⟨_, h tokens, .done _⟩

/-- The empty text is no token. -/
theorem lexes_nil : Lexes [] [] := fun _ => rfl

/-- Texts read one behind the other give their tokens one behind the other. -/
theorem Lexes.append (h : Lexes cs ts) (h' : Lexes ds us) : Lexes (cs ++ ds) (ts ++ us) := by
  intro tokens
  rw [foldlM_append_eq (h tokens), h', List.reverse_append, List.append_assoc]

/-- A text whose last token may still be open can follow one that is read to its end. -/
theorem Lexes.appendTo (h : Lexes cs ts) (h' : LexesTo ds us) : LexesTo (cs ++ ds) (ts ++ us) := by
  intro tokens
  obtain ⟨l, hl, hholds⟩ := h' (ts.reverse ++ tokens)
  refine ⟨l, (foldlM_append_eq (h tokens)).trans hl, ?_⟩
  rwa [List.reverse_append, List.append_assoc]

/-- A character that ends a number may end the last token, too. -/
theorem LexesTo.concat (h : LexesTo cs ts) (us : List Token) {c : Char} (hc : Lexer.EndsNumber c)
    (hbegin : ∀ tokens, Lexer.begin? tokens c = some ⟨us.reverse ++ tokens, .nothing⟩) :
    Lexes (cs ++ [c]) (ts ++ us) := by
  intro tokens
  obtain ⟨l, hl, hholds⟩ := h tokens
  rw [foldlM_append_eq hl, List.reverse_append, List.append_assoc, ← hbegin, ← hholds.push? hc]
  simp

end Lexes

/-! ## Blanks -/

/-- Blank space, a comma, a colon and a closing bracket all end a number. -/
theorem Lexer.endsNumber_of_mem {c : Char}
    (h : c ∈ [' ', '\t', '\n', '\r', ',', ':', ']', '\x7d']) : Lexer.EndsNumber c := by
  simp only [List.mem_cons, List.not_mem_nil, or_false] at h
  rcases h with rfl | rfl | rfl | rfl | rfl | rfl | rfl | rfl
  all_goals exact fun part => by cases part <;> rfl

/-- Blank space gives no token. -/
theorem lexes_blank {b : List Char} (hb : IsBlank b) : Lexes b [] := by
  induction b with
  | nil => exact lexes_nil
  | cons c b ih =>
    have hc : Lexes [c] [] := by
      rcases hb c (List.mem_cons_self ..) with rfl | rfl | rfl | rfl
      all_goals exact fun _ => rfl
    exact hc.append (ih fun d hd => hb d (List.mem_cons_of_mem _ hd))

/-- Blanks behind a text change nothing. -/
theorem LexesTo.append_blank {cs b : List Char} {ts : List Token} (h : LexesTo cs ts)
    (hb : IsBlank b) : LexesTo (cs ++ b) ts := by
  cases b with
  | nil => rwa [List.append_nil]
  | cons c b =>
    have hc : Lexes (cs ++ [c]) (ts ++ []) := by
      rcases hb c (List.mem_cons_self ..) with rfl | rfl | rfl | rfl
      all_goals exact h.concat [] (Lexer.endsNumber_of_mem (by decide)) fun _ => rfl
    have hrest := hc.append (lexes_blank fun d hd => hb d (List.mem_cons_of_mem _ hd))
    simpa using hrest.lexesTo

/-! ## Strings -/

/-- The lexer finds the value of every hexadecimal digit, in either case. -/
theorem hexValue?_of_isHexDigit {c : Char} {d : Nat} (h : IsHexDigit c d) :
    Lexer.hexValue? c = some d := by
  have hlower : ∀ i : Fin 16, Lexer.hexValue? "0123456789abcdef".toList[i] = some i.val := by decide
  have hupper : ∀ i : Fin 16, Lexer.hexValue? "0123456789ABCDEF".toList[i] = some i.val := by decide
  rcases h with h | h
  · obtain ⟨hd, rfl⟩ := List.getElem?_eq_some_iff.mp h
    exact hlower ⟨d, hd⟩
  · obtain ⟨hd, rfl⟩ := List.getElem?_eq_some_iff.mp h
    exact hupper ⟨d, hd⟩

/-- Inside a string its parts are read one by one. -/
theorem IsPiece.read {p : Piece} {cs : List Char} (h : IsPiece p cs) (tokens : List Token)
    (before : List Piece) :
    cs.foldlM Lexer.push? ⟨tokens, .string before⟩ = some ⟨tokens, .string (p :: before)⟩ := by
  cases h with
  | plain hquote hbackslash hcontrol => simp [Lexer.push?, hquote, hbackslash, hcontrol]
  | escaped hmem =>
    simp only [escapes, List.mem_cons, Prod.mk.injEq, List.not_mem_nil, or_false] at hmem
    rcases hmem with ⟨rfl, rfl⟩ | ⟨rfl, rfl⟩ | ⟨rfl, rfl⟩ | ⟨rfl, rfl⟩ | ⟨rfl, rfl⟩ | ⟨rfl, rfl⟩ |
      ⟨rfl, rfl⟩ | ⟨rfl, rfl⟩
    all_goals rfl
  | unit h₁ h₂ h₃ h₄ =>
    simp [Lexer.push?, hexValue?_of_isHexDigit h₁, hexValue?_of_isHexDigit h₂,
      hexValue?_of_isHexDigit h₃, hexValue?_of_isHexDigit h₄]

/-- Inside a string the lexer collects the pieces that its characters spell. -/
theorem IsPieces.read {l : Literal} {cs : List Char} (h : IsPieces l cs) (tokens : List Token)
    (before : List Piece) :
    cs.foldlM Lexer.push? ⟨tokens, .string before⟩ =
      some ⟨tokens, .string (l.reverse ++ before)⟩ := by
  induction h generalizing before with
  | nil => rfl
  | cons hp _ ih =>
    rw [foldlM_append_eq (hp.read tokens before), ih, List.reverse_cons, List.append_assoc]
    rfl

/-- **A string is one token**, whatever escapes it is written with. -/
theorem IsString.lexes {l : Literal} {cs : List Char} (h : IsString l cs) :
    Lexes cs [.string l] := by
  obtain ⟨hpieces⟩ := h
  intro tokens
  have hopen : Lexer.push? ⟨tokens, .nothing⟩ '"' = some ⟨tokens, .string []⟩ := rfl
  rw [foldlM_cons_eq hopen, foldlM_append_eq (hpieces.read tokens [])]
  simp [Lexer.push?]

/-! ## Numbers -/

namespace NumberPart

/-- The part that a digit is read into, behind the part it may follow. -/
def digitParts : List (NumberPart × NumberPart) :=
  [(.whole, .whole), (.point, .fraction), (.fraction, .fraction), (.exponentMark, .exponent),
    (.exponentSign, .exponent), (.exponent, .exponent)]

/-- A digit is read into its part. In particular it is no sign of an exponent. -/
theorem next?_of_isDigit {part part' : NumberPart} (h : (part, part') ∈ digitParts) {c : Char}
    (hc : c.isDigit = true) : part.next? c = some part' := by
  have hsign : ¬(c = '+' ∨ c = '-') := by
    rintro (rfl | rfl)
    all_goals cases hc
  simp only [digitParts, List.mem_cons, Prod.mk.injEq, List.not_mem_nil, or_false] at h
  rcases h with ⟨rfl, rfl⟩ | ⟨rfl, rfl⟩ | ⟨rfl, rfl⟩ | ⟨rfl, rfl⟩ | ⟨rfl, rfl⟩ | ⟨rfl, rfl⟩
  all_goals simp [next?, hsign, hc]

/-- Digits are read into one part. -/
theorem foldlM_digits {part part' : NumberPart} (h : (part, part') ∈ digitParts)
    (h' : (part', part') ∈ digitParts) {cs : List Char} (hcs : IsDigits cs) :
    cs.foldlM next? part = some part' := by
  obtain ⟨hne, hdigits⟩ := hcs
  induction cs generalizing part with
  | nil => exact absurd rfl hne
  | cons c cs ih =>
    rw [foldlM_cons_eq (next?_of_isDigit h (hdigits c (List.mem_cons_self ..)))]
    cases cs with
    | nil => rfl
    | cons d cs => exact ih h' (List.cons_ne_nil _ _) fun e he => hdigits e (List.mem_cons_of_mem _ he)

/-- A whole number is read into its part from its first character on, also behind a sign. -/
theorem read_whole {cs : List Char} (h : IsWhole cs) : ∃ c rest, cs = c :: rest ∧ ∃ part,
    ofFirst? c = some part ∧ next? .minus c = some part ∧
      ∃ part', rest.foldlM next? part = some part' ∧ (part' = .zero ∨ part' = .whole) := by
  cases h with
  | zero => exact ⟨'0', [], rfl, .zero, rfl, rfl, .zero, rfl, Or.inl rfl⟩
  | @digits c cs hzero hdigit hrest =>
    have hminus : c ≠ '-' := by
      rintro rfl
      cases hdigit
    refine ⟨c, cs, rfl, .whole, ?_, ?_, .whole, ?_, Or.inr rfl⟩
    · simp [ofFirst?, hminus, hzero, hdigit]
    · simp [next?, hzero, hdigit]
    · cases cs with
      | nil => rfl
      | cons d cs =>
        exact foldlM_digits (by decide) (by decide) ⟨List.cons_ne_nil _ _, hrest⟩

/-- A fraction, which may be absent, is read from a whole part to a place where a number may end. -/
theorem read_fraction {cs : List Char} (h : IsFraction cs) {part : NumberPart}
    (hpart : part = .zero ∨ part = .whole) :
    ∃ part', cs.foldlM next? part = some part' ∧
      (part' = .zero ∨ part' = .whole ∨ part' = .fraction) := by
  cases h with
  | absent => exact ⟨part, rfl, hpart.imp_right Or.inl⟩
  | digits hdigits =>
    have hpoint : next? part '.' = some .point := by
      rcases hpart with rfl | rfl
      all_goals rfl
    refine ⟨.fraction, ?_, Or.inr (Or.inr rfl)⟩
    rw [foldlM_cons_eq hpoint]
    exact foldlM_digits (by decide) (by decide) hdigits

/-- An exponent, which may be absent, is read to a place where a number may end. -/
theorem read_exponent {cs : List Char} (h : IsExponent cs) {part : NumberPart}
    (hpart : part = .zero ∨ part = .whole ∨ part = .fraction) :
    ∃ part', cs.foldlM next? part = some part' ∧ part'.isFinal = true := by
  cases h with
  | absent =>
    refine ⟨part, rfl, ?_⟩
    rcases hpart with rfl | rfl | rfl
    all_goals rfl
  | @digits letter sign cs hletter hsign hdigits =>
    have hmark : next? part letter = some .exponentMark := by
      rcases hpart with rfl | rfl | rfl
      all_goals rcases hletter with rfl | rfl
      all_goals rfl
    refine ⟨.exponent, ?_, rfl⟩
    rw [foldlM_cons_eq hmark]
    have hdigits' : cs.foldlM next? .exponentSign = some .exponent :=
      foldlM_digits (by decide) (by decide) hdigits
    rcases hsign with rfl | rfl | rfl
    · exact foldlM_digits (by decide) (by decide) hdigits
    · exact hdigits'
    · exact hdigits'

end NumberPart

/-- A number is read into its parts and may end behind its last character. -/
theorem IsNumber.read {cs : List Char} (h : IsNumber cs) : ∃ c rest part part', cs = c :: rest ∧
    NumberPart.ofFirst? c = some part ∧ rest.foldlM NumberPart.next? part = some part' ∧
      part'.isFinal = true := by
  obtain @⟨sign, whole, fraction, exponent, hsign, hwhole, hfraction, hexponent⟩ := h
  obtain ⟨c, rest, rfl, part₁, hfirst, hminus, part₂, hrest, hpart₂⟩ := NumberPart.read_whole hwhole
  obtain ⟨part₃, hpoint, hpart₃⟩ := NumberPart.read_fraction hfraction hpart₂
  obtain ⟨part₄, hmark, hfinal⟩ := NumberPart.read_exponent hexponent hpart₃
  -- from the first digit on the parts are the same with a sign and without
  have hparts : (rest ++ (fraction ++ exponent)).foldlM NumberPart.next? part₁ = some part₄ := by
    rw [foldlM_append_eq hrest, foldlM_append_eq hpoint, hmark]
  rcases hsign with rfl | rfl
  · exact ⟨c, _, part₁, part₄, rfl, hfirst, hparts, hfinal⟩
  · refine ⟨'-', _, .minus, part₄, rfl, rfl, ?_, hfinal⟩
    exact (foldlM_cons_eq hminus).trans hparts

namespace Lexer

/-- The first character of a number begins a number. -/
theorem begin?_of_ofFirst? {c : Char} {part : NumberPart} (h : NumberPart.ofFirst? c = some part)
    (tokens : List Token) : begin? tokens c = some ⟨tokens, .number part [c]⟩ := by
  unfold begin?
  split
  all_goals first | cases h | rw [h]; rfl

/-- Inside a number its characters are read one by one. -/
theorem foldlM_number {cs : List Char} {part part' : NumberPart}
    (h : cs.foldlM NumberPart.next? part = some part') (tokens : List Token) (before : List Char) :
    cs.foldlM push? ⟨tokens, .number part before⟩ =
      some ⟨tokens, .number part' (cs.reverse ++ before)⟩ := by
  induction cs generalizing part before with
  | nil =>
    cases h
    rfl
  | cons c cs ih =>
    obtain ⟨part₁, hc, hrest⟩ := Option.bind_eq_some_iff.mp h
    have hpush : push? ⟨tokens, .number part before⟩ c = some ⟨tokens, .number part₁ (c :: before)⟩ := by
      simp [push?, hc]
    rw [foldlM_cons_eq hpush, ih hrest, List.reverse_cons, List.append_assoc]
    rfl

end Lexer

/-- **A number is one token**, once something that is not part of it follows. -/
theorem IsNumber.lexesTo {cs : List Char} (h : IsNumber cs) :
    LexesTo cs [.number (String.ofList cs)] := by
  obtain ⟨c, rest, part, part', rfl, hfirst, hrest, hfinal⟩ := h.read
  intro tokens
  refine ⟨⟨tokens, .number part' (rest.reverse ++ [c])⟩, ?_, ?_⟩
  · have hbegin : Lexer.push? ⟨tokens, .nothing⟩ c = _ := Lexer.begin?_of_ofFirst? hfirst tokens
    rw [foldlM_cons_eq hbegin]
    exact Lexer.foldlM_number hrest tokens [c]
  · have hholds := Lexer.Holds.number tokens (rest.reverse ++ [c]) hfinal
    simpa [Lexer.numberToken] using hholds

/-! ## Values -/

/-- The first element of several is followed by a comma. -/
theorem elementTokens_cons {v : Json Literal} {vs : List (Json Literal)} (h : vs ≠ []) :
    elementTokens (v :: vs) = tokensOf v ++ .comma :: elementTokens vs := by
  cases vs with
  | nil => exact absurd rfl h
  | cons w vs => rfl

/-- The first member of several is followed by a comma. -/
theorem memberTokens_cons {k : Literal} {v : Json Literal} {ms : List (Literal × Json Literal)}
    (h : ms ≠ []) :
    memberTokens ((k, v) :: ms) =
      .string k :: .colon :: (tokensOf v ++ .comma :: memberTokens ms) := by
  cases ms with
  | nil => exact absurd rfl h
  | cons m ms => rfl

/-- The elements between brackets are at least one. -/
theorem IsElements.ne_nil {vs : List (Json Literal)} {cs : List Char} (h : IsElements vs cs) :
    vs ≠ [] := by
  cases h <;> exact List.cons_ne_nil _ _

/-- The members between braces are at least one. -/
theorem IsMembers.ne_nil {ms : List (Literal × Json Literal)} {cs : List Char}
    (h : IsMembers ms cs) : ms ≠ [] := by
  cases h <;> exact List.cons_ne_nil _ _

section Marks

variable {cs ds : List Char} {ts us : List Token}

/-- A text between two marks is read to the marks' tokens around its own. The closing mark ends a
number that is still read. -/
theorem LexesTo.enclosed (h : LexesTo cs ts) {opening closing : Char} {t t' : Token}
    (hopen : Lexes [opening] [t]) (hclosing : Lexer.EndsNumber closing)
    (hbegin : ∀ tokens, Lexer.begin? tokens closing = some ⟨t' :: tokens, .nothing⟩) :
    LexesTo (opening :: (cs ++ [closing])) (t :: (ts ++ [t'])) :=
  (hopen.append (h.concat [t'] hclosing hbegin)).lexesTo

/-- A text between brackets is read to its tokens between those of the brackets. -/
theorem LexesTo.inBrackets (h : LexesTo cs ts) :
    LexesTo ('[' :: (cs ++ [']'])) (.openArray :: (ts ++ [.closeArray])) :=
  h.enclosed (fun _ => rfl) (Lexer.endsNumber_of_mem (by decide)) fun _ => rfl

/-- A text between braces is read to its tokens between those of the braces. -/
theorem LexesTo.inBraces (h : LexesTo cs ts) :
    LexesTo ('\x7b' :: (cs ++ ['\x7d'])) (.openObject :: (ts ++ [.closeObject])) :=
  h.enclosed (fun _ => rfl) (Lexer.endsNumber_of_mem (by decide)) fun _ => rfl

/-- Two texts with a comma between them are read to their tokens with the comma's between them. -/
theorem LexesTo.separated (h : LexesTo cs ts) (h' : LexesTo ds us) :
    LexesTo (cs ++ ',' :: ds) (ts ++ .comma :: us) := by
  have hcomma : Lexes (cs ++ [',']) (ts ++ [.comma]) :=
    h.concat [.comma] (Lexer.endsNumber_of_mem (by decide)) fun _ => rfl
  simpa using hcomma.appendTo h'

end Marks

mutual

/-- **Every text of a value is read to the tokens of the value**, whatever its blank space. -/
theorem IsValue.lexesTo : ∀ {v : Json Literal} {cs : List Char}, IsValue v cs → LexesTo cs (tokensOf v)
  | _, _, .null => Lexes.lexesTo fun _ => rfl
  | _, _, .true => Lexes.lexesTo fun _ => rfl
  | _, _, .false => Lexes.lexesTo fun _ => rfl
  | _, _, .number h => h.lexesTo
  | _, _, .string h => h.lexes.lexesTo
  | _, _, .emptyArray hb => (lexes_blank hb).lexesTo.inBrackets
  | _, _, .array h => h.lexesTo.inBrackets
  | _, _, .emptyObject hb => (lexes_blank hb).lexesTo.inBraces
  | _, _, .object h => h.lexesTo.inBraces

/-- **A text is cut into the tokens of its value.** -/
theorem IsElement.lexesTo : ∀ {v : Json Literal} {cs : List Char}, IsElement v cs →
    LexesTo cs (tokensOf v)
  | _, _, .intro hb h hb' => (lexes_blank hb).appendTo (h.lexesTo.append_blank hb')

/-- The text of an array's elements is read to their tokens. -/
theorem IsElements.lexesTo : ∀ {vs : List (Json Literal)} {cs : List Char}, IsElements vs cs →
    LexesTo cs (elementTokens vs)
  | _, _, .single h => h.lexesTo
  | _, _, .cons h hs => by
    rw [elementTokens_cons hs.ne_nil]
    exact h.lexesTo.separated hs.lexesTo

/-- The text of a member is read to its key, a colon and the tokens of its value. -/
theorem IsMember.lexesTo : ∀ {k : Literal} {v : Json Literal} {cs : List Char}, IsMember k v cs →
    LexesTo cs (.string k :: .colon :: tokensOf v)
  | k, _, _, @IsMember.intro b b' _ _ cs ds hb hk hb' h => by
    have hkey : LexesTo (b ++ (cs ++ b')) [.string k] :=
      (lexes_blank hb).appendTo (hk.lexes.lexesTo.append_blank hb')
    have hcolon : Lexes (b ++ (cs ++ b') ++ [':']) ([.string k] ++ [.colon]) :=
      hkey.concat [.colon] (Lexer.endsNumber_of_mem (by decide)) fun _ => rfl
    simpa using hcolon.appendTo h.lexesTo

/-- The text of an object's members is read to their tokens. -/
theorem IsMembers.lexesTo : ∀ {ms : List (Literal × Json Literal)} {cs : List Char},
    IsMembers ms cs → LexesTo cs (memberTokens ms)
  | _, _, .single h => h.lexesTo
  | _, _, .cons h hs => by
    rw [memberTokens_cons hs.ne_nil]
    exact h.lexesTo.separated hs.lexesTo

end

/-- The tokens of a text are those of its value. -/
theorem tokens?_of_isElement {v : Json Literal} {text : String} (h : IsElement v text.toList) :
    tokens? text = some (tokensOf v) := by
  obtain ⟨l, hl, hholds⟩ := h.lexesTo []
  have hrun : text.toList.foldlM Lexer.push? Lexer.empty = some l := hl
  unfold tokens?
  rw [hrun, Option.bind_some, hholds.finish?, List.append_nil, List.reverse_reverse]

end ShiftReduce.Json
