import Mathlib.Tactic.SplitIfs
import ShiftReduce.Json.Writer
import ShiftReduce.Proofs.JsonReader

/-! # What is written is read back

The text of a value is a text of the grammar in every layout that adds nothing but blanks
(`Json.isValue_write`). Its strings are the literals in which each character is written as it has to be, and
these denote the strings (`Json.texts?_literals`). So what is written is read back (`Json.parse?_write`). -/

namespace ShiftReduce.Json

/-! ## Strings -/

/-- The part of a literal as which a character is written: most control characters are written by their
numbers. -/
def writtenPiece (c : Char) : Piece :=
  if c.toNat < 0x20 ∧ c ∉ ['\x08', '\t', '\n', '\x0c', '\r'] then .unit c.toNat else .char c

/-- The literal as which a string is written. -/
def literalOf (s : String) : Literal := s.toList.map writtenPiece

/-- The digit written for a value has that value. -/
theorem isHexDigit_hexDigit {d : Nat} (h : d < 16) : IsHexDigit (hexDigit d) d := by
  have hall : ∀ i : Fin 16, "0123456789abcdef".toList[i.val]? = some (hexDigit i.val) := by decide
  exact Or.inl (hall ⟨d, h⟩)

/-- A character that is not written by itself has a letter or a number. -/
theorem isPiece_escapeChar (c : Char) : IsPiece (writtenPiece c) (escapeChar c).toList := by
  unfold escapeChar
  split_ifs with h₁ h₂ h₃ h₄ h₅ h₆ h₇ h₈
  · subst h₁
    exact .escaped (by decide)
  · subst h₂
    exact .escaped (by decide)
  · subst h₃
    exact .escaped (by decide)
  · subst h₄
    exact .escaped (by decide)
  · subst h₅
    exact .escaped (by decide)
  · subst h₆
    exact .escaped (by decide)
  · subst h₇
    exact .escaped (by decide)
  · have hpiece : writtenPiece c = .unit (16 * (16 * (16 * 0 + 0) + c.toNat / 16) + c.toNat % 16) := by
      simp only [writtenPiece]
      rw [if_pos ⟨h₈, by simp [h₃, h₄, h₅, h₆, h₇]⟩]
      congr 1
      omega
    rw [hpiece, String.toList_ofList]
    exact .unit (Or.inl rfl) (Or.inl rfl) (isHexDigit_hexDigit (by omega)) (isHexDigit_hexDigit (by omega))
  · have hpiece : writtenPiece c = .char c := if_neg fun h => h₈ h.1
    rw [hpiece, Char.toString, String.toList_singleton]
    exact .plain h₁ h₂ (by omega)

/-- **A quoted text is a string of the format** that stands for the text. -/
theorem isString_quoted (s : String) : IsString (literalOf s) (quoted s).toList := by
  have hpieces (cs : List Char) :
      IsPieces (cs.map writtenPiece) (cs.flatMap fun c => (escapeChar c).toList) := by
    induction cs with
    | nil => exact .nil
    | cons c cs ih => exact .cons (isPiece_escapeChar c) ih
  have hquoted : (quoted s).toList =
      '"' :: ((s.toList.flatMap fun c => (escapeChar c).toList) ++ ['"']) := by
    simp [quoted, List.flatMap_map]
  rw [hquoted]
  exact .intro (hpieces s.toList)

/-- A code unit that is no surrogate is a character. -/
theorem Literal.chars?_unit {u : Nat} (hu : u < 0xD800) (done : List Char) (l : Literal) :
    Literal.chars? done (.unit u :: l) = Literal.chars? (Char.ofNat u :: done) l := by
  have hhigh : isHighSurrogate u = false := by simp [isHighSurrogate]; omega
  have hlow : isLowSurrogate u = false := by simp [isLowSurrogate]; omega
  cases l with
  | nil => simp [Literal.chars?, hhigh, hlow]
  | cons p l =>
    cases p with
    | char c => simp [Literal.chars?, hhigh, hlow]
    | unit v => simp [Literal.chars?, hhigh, hlow]

/-- **A string is denoted by the literal as which it is written.** -/
theorem text?_literalOf (s : String) : (literalOf s).text? = some s := by
  have hchars (cs done : List Char) :
      Literal.chars? done (cs.map writtenPiece) = some (done.reverse ++ cs) := by
    induction cs generalizing done with
    | nil => simp [Literal.chars?]
    | cons c cs ih =>
      have hpiece : Literal.chars? done (writtenPiece c :: cs.map writtenPiece) =
          Literal.chars? (c :: done) (cs.map writtenPiece) := by
        unfold writtenPiece
        split
        · next h => rw [Literal.chars?_unit (by omega), Char.ofNat_toNat]
        · rfl
      rw [List.map_cons, hpiece, ih]
      simp
  simp [Literal.text?, literalOf, hchars]

/-! ## Values -/

mutual

/-- The value with the literals as which its strings are written. -/
def literals : Json String → Json Literal
  | .null => .null
  | .bool b => .bool b
  | .number digits => .number digits
  | .string s => .string (literalOf s)
  | .array elements => .array (elementLiterals elements)
  | .object members => .object (memberLiterals members)

/-- The elements with the literals as which their strings are written. -/
def elementLiterals : List (Json String) → List (Json Literal)
  | [] => []
  | v :: rest => literals v :: elementLiterals rest

/-- The members with the literals as which their strings are written. -/
def memberLiterals : List (String × Json String) → List (Literal × Json Literal)
  | [] => []
  | (k, v) :: rest => (literalOf k, literals v) :: memberLiterals rest

end

mutual

/-- A value is what its literals denote. -/
theorem texts?_literals : ∀ v : Json String, texts? (literals v) = some v
  | .null => rfl
  | .bool _ => rfl
  | .number _ => rfl
  | .string s => by simp [literals, texts?, text?_literalOf]
  | .array elements => by simp [literals, texts?, elementTexts?_elementLiterals elements]
  | .object members => by simp [literals, texts?, memberTexts?_memberLiterals members]

/-- The elements' strings come back as the texts they were written for. -/
theorem elementTexts?_elementLiterals : ∀ vs : List (Json String),
    elementTexts? (elementLiterals vs) = some vs
  | [] => rfl
  | v :: rest => by
    simp [elementLiterals, elementTexts?, texts?_literals v, elementTexts?_elementLiterals rest]

/-- The members' keys and strings come back as the texts they were written for. -/
theorem memberTexts?_memberLiterals : ∀ ms : List (String × Json String),
    memberTexts? (memberLiterals ms) = some ms
  | [] => rfl
  | (k, v) :: rest => by
    simp [memberLiterals, memberTexts?, texts?_literals v, text?_literalOf,
      memberTexts?_memberLiterals rest]

end

/-! ## Layouts -/

/-- A layout adds nothing but blanks. -/
structure Layout.IsBlank (layout : Layout) : Prop where
  /-- before elements and closing brackets -/
  indent : ∀ depth, Json.IsBlank (layout.indent depth).toList
  /-- around the colon -/
  colon : ∃ b b' : List Char, Json.IsBlank b ∧ Json.IsBlank b' ∧
    layout.colon.toList = b ++ ':' :: b'

/-- The compact layout puts nothing between the tokens. -/
theorem Layout.isBlank_compact : Layout.compact.IsBlank where
  indent _ := isBlank_nil
  colon := ⟨[], [], isBlank_nil, isBlank_nil, rfl⟩

/-- The indented layout puts only blank space between the tokens. -/
theorem Layout.isBlank_indented : Layout.indented.IsBlank where
  indent depth := by
    intro c hc
    simp only [indented, String.toList_append, String.toList_ofList, List.mem_append,
      List.mem_replicate] at hc
    rcases hc with hc | ⟨-, rfl⟩
    · exact Or.inr (Or.inr (Or.inl (List.mem_singleton.mp hc)))
    · exact Or.inl rfl
  colon := ⟨[], [' '], isBlank_nil, fun _ hc => Or.inl (List.mem_singleton.mp hc), rfl⟩

/-! ## Values in a layout -/

/-- All numbers in a value are written as numbers. -/
inductive IsWritable : Json String → Prop
  /-- the null value -/
  | null : IsWritable .null
  /-- a truth value -/
  | bool (b : Bool) : IsWritable (.bool b)
  /-- a number that is one -/
  | number {digits : String} : IsNumber digits.toList → IsWritable (.number digits)
  /-- a string -/
  | string (s : String) : IsWritable (.string s)
  /-- an array of such values -/
  | array {elements : List (Json String)} : (∀ v ∈ elements, IsWritable v) →
    IsWritable (.array elements)
  /-- an object with such values -/
  | object {members : List (String × Json String)} : (∀ m ∈ members, IsWritable m.2) →
    IsWritable (.object members)

/-- Parts between brackets: all of them begin with what stands before an element. -/
theorem toList_bracketed (layout : Layout) (depth : Nat) (opening closing : String) {parts : List String}
    (h : parts ≠ []) :
    (bracketed layout depth opening closing parts).toList =
      opening.toList ++ ((layout.indent (depth + 1)).toList ++
        (("," ++ layout.indent (depth + 1)).intercalate parts).toList ++
          (layout.indent depth).toList ++ closing.toList) := by
  simp [bracketed, h]

/-- A member is written as its key, a colon and its value. -/
theorem isMember_write {layout : Layout} (hl : layout.IsBlank) (k : String) {v : Json String}
    (depth : Nat) (hv : IsValue (literals v) (write layout depth v).toList) {outer : List Char}
    (houter : Json.IsBlank outer) :
    IsMember (literalOf k) (literals v) ((layout.indent depth).toList ++
      (quoted k ++ layout.colon ++ write layout depth v).toList ++ outer) := by
  obtain ⟨b, b', hb, hb', hcolon⟩ := hl.colon
  have hmember := IsMember.intro (hl.indent depth) (isString_quoted k) hb
    (IsElement.intro hb' hv houter)
  simpa [hcolon] using hmember

mutual

/-- **The text of a value is a text of the grammar.** -/
theorem isValue_write {layout : Layout} (hl : layout.IsBlank) : ∀ v : Json String, IsWritable v →
    ∀ depth, IsValue (literals v) (write layout depth v).toList
  | .null, _, _ => by simpa [write, literals] using IsValue.null
  | .bool true, _, _ => by simpa [write, literals] using IsValue.true
  | .bool false, _, _ => by simpa [write, literals] using IsValue.false
  | .number digits, .number h, _ => by simpa [write, literals] using IsValue.number h
  | .string s, _, _ => .string (isString_quoted s)
  | .array [], _, _ => by
    simpa [write, literals, elementLiterals, writeElements, bracketed] using
      (IsValue.emptyArray isBlank_nil)
  | .array (v :: vs), .array h, depth => by
    have helements := isElements_write hl (v :: vs) (List.cons_ne_nil _ _) h (depth + 1)
      (layout.indent depth) (hl.indent depth)
    rw [write, literals, toList_bracketed layout depth _ _ (by simp [writeElements])]
    exact .array helements
  | .object [], _, _ => by
    simpa [write, literals, memberLiterals, writeMembers, bracketed] using
      (IsValue.emptyObject isBlank_nil)
  | .object ((k, v) :: ms), .object h, depth => by
    have hmembers := isMembers_write hl ((k, v) :: ms) (List.cons_ne_nil _ _) h (depth + 1)
      (layout.indent depth) (hl.indent depth)
    rw [write, literals, toList_bracketed layout depth _ _ (by simp [writeMembers])]
    exact .object hmembers

/-- Elements are separated by commas and begin with what stands before an element. -/
theorem isElements_write {layout : Layout} (hl : layout.IsBlank) : ∀ vs : List (Json String),
    vs ≠ [] → (∀ v ∈ vs, IsWritable v) → ∀ depth (outer : String), Json.IsBlank outer.toList →
      IsElements (elementLiterals vs) ((layout.indent depth).toList ++
        (("," ++ layout.indent depth).intercalate (writeElements layout depth vs)).toList ++
          outer.toList)
  | [], h, _, _, _, _ => absurd rfl h
  | [v], _, h, depth, outer, houter => by
    have helement := IsElement.intro (hl.indent depth)
      (isValue_write hl v (h v (List.mem_singleton_self v)) depth) houter
    simpa [elementLiterals, writeElements] using IsElements.single helement
  | v :: w :: vs, _, h, depth, outer, houter => by
    have helement := IsElement.intro (hl.indent depth)
      (isValue_write hl v (h v (List.mem_cons_self ..)) depth) isBlank_nil
    have hrest := isElements_write hl (w :: vs) (List.cons_ne_nil _ _)
      (fun u hu => h u (List.mem_cons_of_mem _ hu)) depth outer houter
    simpa [elementLiterals, writeElements] using IsElements.cons helement hrest

/-- Members are separated by commas and begin with what stands before a member. -/
theorem isMembers_write {layout : Layout} (hl : layout.IsBlank) : ∀ ms : List (String × Json String),
    ms ≠ [] → (∀ m ∈ ms, IsWritable m.2) → ∀ depth (outer : String), Json.IsBlank outer.toList →
      IsMembers (memberLiterals ms) ((layout.indent depth).toList ++
        (("," ++ layout.indent depth).intercalate (writeMembers layout depth ms)).toList ++
          outer.toList)
  | [], h, _, _, _, _ => absurd rfl h
  | [(k, v)], _, h, depth, outer, houter => by
    have hvalue := isValue_write hl v (h _ (List.mem_singleton_self _)) depth
    have hmember := isMember_write hl k depth hvalue houter
    simpa [memberLiterals, writeMembers] using IsMembers.single hmember
  | (k, v) :: m :: ms, _, h, depth, outer, houter => by
    have hvalue := isValue_write hl v (h _ (List.mem_cons_self ..)) depth
    have hmember := isMember_write hl k depth hvalue isBlank_nil
    have hrest := isMembers_write hl (m :: ms) (List.cons_ne_nil _ _)
      (fun n hn => h n (List.mem_cons_of_mem _ hn)) depth outer houter
    simpa [memberLiterals, writeMembers] using IsMembers.cons hmember hrest

end

/-! ## Reading back -/

section Write

variable {layout : Layout} {v : Json String}

/-- **What is written is a text of the grammar.** -/
theorem isElement_write (hl : layout.IsBlank) (hv : IsWritable v) :
    IsElement (literals v) (v.write layout 0).toList := by
  simpa using IsElement.intro isBlank_nil (isValue_write hl v hv 0) isBlank_nil

/-- **What is written is read back.** -/
theorem parse?_write (hl : layout.IsBlank) (hv : IsWritable v) : parse? (v.write layout 0) = some v := by
  unfold parse?
  rw [read?_of_isElement (isElement_write hl hv), Option.bind_some, texts?_literals]

end Write

/-! ## Natural numbers -/

/-- The digits of a number that is not zero do not begin with a zero. -/
theorem exists_toDigits_eq_cons {n : Nat} (h : 0 < n) :
    ∃ c cs, Nat.toDigits 10 n = c :: cs ∧ c ≠ '0' := by
  induction n using Nat.strongRecOn with
  | ind n ih =>
    by_cases hn : n < 10
    · refine ⟨n.digitChar, [], Nat.toDigits_of_lt_base hn, ?_⟩
      have hall : ∀ i : Fin 10, 0 < i.val → i.val.digitChar ≠ '0' := by decide
      exact hall ⟨n, hn⟩ h
    · obtain ⟨c, cs, hcs, hc⟩ := ih (n / 10) (by omega) (by omega)
      refine ⟨c, cs ++ [(n % 10).digitChar], ?_, hc⟩
      rw [Nat.toDigits_of_base_le (by decide) (by omega), hcs]
      rfl

/-- A number written in decimal is one the format knows. -/
theorem isWritable_ofNat (n : Nat) : IsWritable (.ofNat n) := by
  have hdigits : ∀ c ∈ Nat.toDigits 10 n, c.isDigit = true := fun c hc =>
    Nat.isDigit_of_mem_toDigits (by decide) (by decide) hc
  have hwhole : IsWhole (Nat.toDigits 10 n) := by
    rcases Nat.eq_zero_or_pos n with rfl | hn
    · exact .zero
    · obtain ⟨c, cs, hcs, hc⟩ := exists_toDigits_eq_cons hn
      rw [hcs] at hdigits ⊢
      exact .digits hc (hdigits c (List.mem_cons_self ..)) fun d hd =>
        hdigits d (List.mem_cons_of_mem _ hd)
  refine .number ?_
  simpa using IsNumber.intro (Or.inl rfl) hwhole .absent .absent

/-- A list of texts can be written. -/
theorem isWritable_ofStrings (l : List String) : IsWritable (.ofStrings l) := by
  refine .array fun v hv => ?_
  obtain ⟨s, -, rfl⟩ := List.mem_map.mp hv
  exact .string s

end ShiftReduce.Json
