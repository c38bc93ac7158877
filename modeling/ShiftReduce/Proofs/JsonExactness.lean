import ShiftReduce.Proofs.JsonReader
import ShiftReduce.Proofs.JsonTokens

/-! # The reader reads only texts of the grammar

What is still open while a value is read tells which tokens may come (`Json.Reader.Demands`), so that the
tokens of what is read are those of one value. Their spellings make a text of the grammar. Together with
`Json.read?_of_isElement` the texts that are read are just those of the grammar (`Json.read?_eq_some`). -/

namespace ShiftReduce.Json

/-! ## Which tokens may come -/

namespace Reader

/-- What may come behind a value, if the whole is to be `w`: the rest of all that is open around it. -/
inductive Closes (w : Json Literal) : List Frame → Json Literal → List Token → Prop
  /-- nothing is open -/
  | done : Closes w [] w []
  /-- an array is open -/
  | element {before vs : List (Json Literal)} {stack : List Frame} {v : Json Literal} {ts : List Token} :
    Closes w stack (.array (before.reverse ++ v :: vs)) ts →
    Closes w (.element before :: stack) v (furtherElements vs ++ .closeArray :: ts)
  /-- an object is open -/
  | member {before ms : List (Literal × Json Literal)} {stack : List Frame} {k : Literal}
    {v : Json Literal} {ts : List Token} :
    Closes w stack (.object (before.reverse ++ (k, v) :: ms)) ts →
    Closes w (.member before k :: stack) v (furtherMembers ms ++ .closeObject :: ts)

/-- Which tokens may come, if the whole is to be `w`. -/
inductive Demands (w : Json Literal) : Reader → List Token → Prop
  /-- a value -/
  | value {stack : List Frame} {v : Json Literal} {ts : List Token} : Closes w stack v ts →
    Demands w (.value stack) (tokensOf v ++ ts)
  /-- the elements of an array -/
  | firstElement {stack : List Frame} {vs : List (Json Literal)} {ts : List Token} :
    Closes w stack (.array vs) ts →
    Demands w (.firstElement stack) (elementTokens vs ++ .closeArray :: ts)
  /-- the members of an object -/
  | firstMember {stack : List Frame} {ms : List (Literal × Json Literal)} {ts : List Token} :
    Closes w stack (.object ms) ts →
    Demands w (.firstMember stack) (memberTokens ms ++ .closeObject :: ts)
  /-- at least one member -/
  | key {stack : List Frame} {before ms : List (Literal × Json Literal)} {m : Literal × Json Literal}
    {ts : List Token} : Closes w stack (.object (before.reverse ++ m :: ms)) ts →
    Demands w (.key stack before) (memberTokens (m :: ms) ++ .closeObject :: ts)
  /-- a colon and a value -/
  | colon {stack : List Frame} {before : List (Literal × Json Literal)} {k : Literal}
    {v : Json Literal} {ts : List Token} : Closes w (.member before k :: stack) v ts →
    Demands w (.colon stack before k) (.colon :: (tokensOf v ++ ts))
  /-- the rest of what is open -/
  | after {stack : List Frame} {v : Json Literal} {ts : List Token} : Closes w stack v ts →
    Demands w (.after stack v) ts

variable {w : Json Literal} {stack : List Frame} {ts : List Token} {t : Token} {r r' : Reader}

/-- An array that has just been opened may begin with an element. -/
theorem Demands.firstElement_of_value (h : Demands w (.value (.element [] :: stack)) ts) :
    Demands w (.firstElement stack) ts := by
  cases h with
  | value hcloses =>
    cases hcloses with
    | element hcloses =>
      rw [← List.append_assoc, ← elementTokens_eq_further]
      exact .firstElement hcloses

/-- An object that has just been opened may begin with a member. -/
theorem Demands.firstMember_of_key (h : Demands w (.key stack []) ts) :
    Demands w (.firstMember stack) ts := by
  cases h with
  | key hcloses => exact .firstMember hcloses

/-- Behind a key come the value and perhaps other members. -/
theorem Demands.key_of_colon {before : List (Literal × Json Literal)} {k : Literal}
    (h : Demands w (.colon stack before k) ts) : Demands w (.key stack before) (.string k :: ts) := by
  cases h with
  | @colon _ _ _ v _ hcloses =>
    cases hcloses with
    | @member _ ms _ _ _ ts hcloses =>
      have hkey := Demands.key hcloses
      rw [memberTokens_eq_further] at hkey
      simpa using hkey

/-- Behind an element come a comma and another one. -/
theorem Demands.after_of_value {before : List (Json Literal)} {v : Json Literal}
    (h : Demands w (.value (.element (v :: before) :: stack)) ts) :
    Demands w (.after (.element before :: stack) v) (.comma :: ts) := by
  cases h with
  | @value _ v' _ hcloses =>
    cases hcloses with
    | @element _ vs _ _ ts hcloses =>
      rw [List.reverse_cons, List.append_assoc, List.singleton_append] at hcloses
      have hafter := Demands.after (.element hcloses)
      rw [furtherElements, elementTokens_eq_further] at hafter
      simpa using hafter

/-- Behind a member come a comma and another one. -/
theorem Demands.after_of_key {before : List (Literal × Json Literal)} {k : Literal} {v : Json Literal}
    (h : Demands w (.key stack ((k, v) :: before)) ts) :
    Demands w (.after (.member before k :: stack) v) (.comma :: ts) := by
  cases h with
  | @key _ _ ms m ts hcloses =>
    rw [List.reverse_cons, List.append_assoc, List.singleton_append] at hcloses
    exact .after (.member hcloses)

/-- A token with which a value begins is the first one of what may come. -/
theorem demands_of_begin? (h : begin? stack t = some r) (hr : Demands w r ts) :
    Demands w (.value stack) (t :: ts) := by
  unfold begin? at h
  split at h
  case h_1 | h_2 | h_3 | h_4 =>
    cases h
    cases hr with
    | after hcloses => exact .value hcloses
  case h_5 =>
    cases h
    cases hr with
    | @firstElement _ vs ts hcloses =>
      have hvalue := Demands.value hcloses
      rw [tokensOf] at hvalue
      simpa using hvalue
  case h_6 =>
    cases h
    cases hr with
    | @firstMember _ ms ts hcloses =>
      have hvalue := Demands.value hcloses
      rw [tokensOf] at hvalue
      simpa using hvalue
  all_goals cases h

/-- **A token that is read is the first one of what may come.** -/
theorem demands_of_push? (h : push? r t = some r') (hr' : Demands w r' ts) : Demands w r (t :: ts) := by
  unfold push? at h
  split at h
  · exact demands_of_begin? h hr'
  · cases h
    cases hr' with
    | after hcloses => exact .firstElement hcloses
  · exact (demands_of_begin? h hr').firstElement_of_value
  · cases h
    cases hr' with
    | after hcloses => exact .firstMember hcloses
  · cases h
    exact hr'.key_of_colon.firstMember_of_key
  · cases h
    exact hr'.key_of_colon
  · cases h
    cases hr' with
    | value hcloses => exact .colon hcloses
  · cases h
    exact hr'.after_of_value
  · cases h
    cases hr' with
    | after hcloses =>
      rw [List.reverse_cons] at hcloses
      exact .after (.element hcloses)
  · cases h
    exact hr'.after_of_key
  · cases h
    cases hr' with
    | after hcloses =>
      rw [List.reverse_cons] at hcloses
      exact .after (.member hcloses)
  all_goals cases h

/-- The tokens that are read up to the end of a value are those that may come. -/
theorem demands_of_foldlM (h : ts.foldlM push? r = some r') (hr' : r'.finish? = some w) :
    Demands w r ts := by
  induction ts generalizing r with
  | nil =>
    cases h
    unfold finish? at hr'
    split at hr'
    · cases hr'
      exact .after .done
    · cases hr'
  | cons t ts ih =>
    obtain ⟨r₁, hpush, hrest⟩ := Option.bind_eq_some_iff.mp h
    exact demands_of_push? hpush (ih hrest)

/-- Tokens that are read as a value are the tokens of the value. -/
theorem eq_tokensOf_of_foldlM (h : ts.foldlM push? (.value []) = some r') (hr' : r'.finish? = some w) :
    ts = tokensOf w := by
  obtain ⟨⟨⟩⟩ := demands_of_foldlM h hr'
  exact List.append_nil _

end Reader

/-! ## Texts of values -/

/-- The first token of a text, with the blanks before it and what is behind it. -/
theorem TokenText.cons_cases {t : Token} {ts : List Token} {cs : List Char}
    (h : TokenText (t :: ts) cs) :
    ∃ b ds es, IsBlank b ∧ IsToken t ds ∧ TokenText ts es ∧ cs = b ++ (ds ++ es) := by
  cases h with
  | cons hb ht hts => exact ⟨_, _, _, hb, ht, hts, rfl⟩

/-- A text of the tokens of a value and others begins with a text of the value. -/
def HasText (v : Json Literal) : Prop :=
  ∀ (ts : List Token) (cs : List Char), TokenText (tokensOf v ++ ts) cs →
    ∃ b ds es, IsBlank b ∧ IsValue v ds ∧ TokenText ts es ∧ cs = b ++ (ds ++ es)

/-- The token is a mark, with one spelling. -/
def IsMark (t : Token) (c : Char) : Prop := ∀ cs, IsToken t cs → cs = [c]

/-- The closing bracket is one mark of its own. -/
theorem isMark_closeArray : IsMark .closeArray ']' := by
  rintro _ ⟨⟩
  rfl

/-- The closing brace is one mark of its own. -/
theorem isMark_closeObject : IsMark .closeObject '\x7d' := by
  rintro _ ⟨⟩
  rfl

/-- The comma is one mark of its own. -/
theorem isMark_comma : IsMark .comma ',' := by
  rintro _ ⟨⟩
  rfl

/-- The colon is one mark of its own. -/
theorem isMark_colon : IsMark .colon ':' := by
  rintro _ ⟨⟩
  rfl

section Marks

variable {v : Json Literal} {t : Token} {c : Char} {ts : List Token} {cs : List Char}

/-- What is before a mark, and what is behind it. -/
theorem IsMark.cases_cons (hmark : IsMark t c) (h : TokenText (t :: ts) cs) :
    ∃ b ds, IsBlank b ∧ TokenText ts ds ∧ cs = b ++ c :: ds := by
  obtain ⟨b, ds, es, hb, ht, hts, rfl⟩ := h.cons_cases
  rw [hmark ds ht]
  exact ⟨b, es, hb, hts, rfl⟩

/-- The blanks before a mark belong to the element before it. -/
theorem HasText.element (hv : HasText v) (hmark : IsMark t c)
    (h : TokenText (tokensOf v ++ t :: ts) cs) :
    ∃ ds es, IsElement v ds ∧ TokenText ts es ∧ cs = ds ++ c :: es := by
  obtain ⟨b, ds, rest, hb, hvalue, hrest, rfl⟩ := hv _ _ h
  obtain ⟨b', es, hb', hts, rfl⟩ := hmark.cases_cons hrest
  exact ⟨_, es, .intro hb hvalue hb', hts, by simp⟩

/-- The blanks before a mark belong to the member before it. -/
theorem HasText.member {k : Literal} (hv : HasText v) (hmark : IsMark t c)
    (h : TokenText (.string k :: .colon :: (tokensOf v ++ t :: ts)) cs) :
    ∃ ds es, IsMember k v ds ∧ TokenText ts es ∧ cs = ds ++ c :: es := by
  obtain ⟨b, ds, rest, hb, hkey, hrest, rfl⟩ := h.cons_cases
  obtain ⟨b', rest', hb', hrest', rfl⟩ := isMark_colon.cases_cons hrest
  obtain ⟨ds', es, helement, hts, rfl⟩ := hv.element hmark hrest'
  cases hkey with
  | string hkey => exact ⟨_, es, .intro hb hkey hb' helement, hts, by simp⟩

end Marks

mutual

/-- **A text of the tokens of a value is a text of the value.** -/
theorem hasText : ∀ v : Json Literal, HasText v
  | .null, ts, cs, h => by
    obtain ⟨b, ds, es, hb, ⟨⟩, hts, rfl⟩ := h.cons_cases
    exact ⟨b, _, es, hb, .null, hts, rfl⟩
  | .bool _, ts, cs, h => by
    obtain ⟨b, ds, es, hb, ht, hts, rfl⟩ := h.cons_cases
    refine ⟨b, ds, es, hb, ?_, hts, rfl⟩
    cases ht with
    | true => exact .true
    | false => exact .false
  | .number _, ts, cs, h => by
    obtain ⟨b, ds, es, hb, ht, hts, rfl⟩ := h.cons_cases
    cases ht with
    | number hnumber => exact ⟨b, ds, es, hb, .number hnumber, hts, rfl⟩
  | .string _, ts, cs, h => by
    obtain ⟨b, ds, es, hb, ht, hts, rfl⟩ := h.cons_cases
    cases ht with
    | string hstring => exact ⟨b, ds, es, hb, .string hstring, hts, rfl⟩
  | .array [], ts, cs, h => by
    obtain ⟨b, _, rest, hb, ⟨⟩, hrest, rfl⟩ := h.cons_cases
    obtain ⟨b', es, hb', hts, rfl⟩ := isMark_closeArray.cases_cons hrest
    exact ⟨b, _, es, hb, .emptyArray hb', hts, by simp⟩
  | .array (v :: vs), ts, cs, h => by
    rw [tokensOf, List.cons_append, List.append_assoc] at h
    obtain ⟨b, _, rest, hb, ⟨⟩, hrest, rfl⟩ := h.cons_cases
    obtain ⟨ds, es, helements, hts, rfl⟩ := hasText_elements (v :: vs) (List.cons_ne_nil _ _) hrest
    exact ⟨b, _, es, hb, .array helements, hts, by simp⟩
  | .object [], ts, cs, h => by
    obtain ⟨b, _, rest, hb, ⟨⟩, hrest, rfl⟩ := h.cons_cases
    obtain ⟨b', es, hb', hts, rfl⟩ := isMark_closeObject.cases_cons hrest
    exact ⟨b, _, es, hb, .emptyObject hb', hts, by simp⟩
  | .object (m :: ms), ts, cs, h => by
    rw [tokensOf, List.cons_append, List.append_assoc] at h
    obtain ⟨b, _, rest, hb, ⟨⟩, hrest, rfl⟩ := h.cons_cases
    obtain ⟨ds, es, hmembers, hts, rfl⟩ := hasText_members (m :: ms) (List.cons_ne_nil _ _) hrest
    exact ⟨b, _, es, hb, .object hmembers, hts, by simp⟩

/-- A text of the tokens of elements is a text of the elements. -/
theorem hasText_elements : ∀ vs : List (Json Literal), vs ≠ [] → ∀ {ts : List Token} {cs : List Char},
    TokenText (elementTokens vs ++ .closeArray :: ts) cs →
      ∃ ds es, IsElements vs ds ∧ TokenText ts es ∧ cs = ds ++ ']' :: es
  | [], hne, _, _, _ => absurd rfl hne
  | [v], _, ts, cs, h => by
    obtain ⟨ds, es, helement, hts, rfl⟩ := (hasText v).element isMark_closeArray h
    exact ⟨ds, es, .single helement, hts, rfl⟩
  | v :: w :: vs, _, ts, cs, h => by
    rw [elementTokens_cons (List.cons_ne_nil w vs), List.append_assoc] at h
    obtain ⟨ds, rest, helement, hrest, rfl⟩ := (hasText v).element isMark_comma h
    obtain ⟨ds', es, helements, hts, rfl⟩ := hasText_elements (w :: vs) (List.cons_ne_nil _ _) hrest
    exact ⟨_, es, .cons helement helements, hts, by simp⟩

/-- A text of the tokens of members is a text of the members. -/
theorem hasText_members : ∀ ms : List (Literal × Json Literal), ms ≠ [] →
    ∀ {ts : List Token} {cs : List Char}, TokenText (memberTokens ms ++ .closeObject :: ts) cs →
      ∃ ds es, IsMembers ms ds ∧ TokenText ts es ∧ cs = ds ++ '\x7d' :: es
  | [], hne, _, _, _ => absurd rfl hne
  | [(k, v)], _, ts, cs, h => by
    obtain ⟨ds, es, hmember, hts, rfl⟩ := (hasText v).member isMark_closeObject h
    exact ⟨ds, es, .single hmember, hts, rfl⟩
  | (k, v) :: m :: ms, _, ts, cs, h => by
    rw [memberTokens_cons (List.cons_ne_nil m ms)] at h
    simp only [List.cons_append, List.append_assoc] at h
    obtain ⟨ds, rest, hmember, hrest, rfl⟩ := (hasText v).member isMark_comma h
    obtain ⟨ds', es, hmembers, hts, rfl⟩ := hasText_members (m :: ms) (List.cons_ne_nil _ _) hrest
    exact ⟨_, es, .cons hmember hmembers, hts, by simp⟩

end

/-- **Just the texts of the grammar are read**, each one as its value. -/
theorem read?_eq_some {text : String} {v : Json Literal} :
    read? text = some v ↔ IsElement v text.toList := by
  refine ⟨fun h => ?_, read?_of_isElement⟩
  obtain ⟨ts, htokens, h⟩ := Option.bind_eq_some_iff.mp h
  obtain ⟨r, hrun, hfinish⟩ := Option.bind_eq_some_iff.mp h
  have htext := tokenText_of_tokens? htokens
  rw [Reader.eq_tokensOf_of_foldlM hrun hfinish, ← List.append_nil (tokensOf v)] at htext
  obtain ⟨b, ds, es, hb, hvalue, hnil, heq⟩ := hasText v _ _ htext
  rw [heq]
  cases hnil with
  | nil hb' => exact .intro hb hvalue hb'

end ShiftReduce.Json
