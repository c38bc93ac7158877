import ShiftReduce.Proofs.JsonLexer

/-! # The reader reads every text of the grammar

The tokens of a value are put together to that value, whatever is still open around it
(`Json.Reader.foldlM_tokensOf`). So every text of the grammar is read as its value
(`Json.read?_of_isElement`), of which it has but one. -/

namespace ShiftReduce.Json

/-! ## Elements and members behind another one -/

/-- The tokens of elements behind another one. -/
def furtherElements : List (Json Literal) → List Token
  | [] => []
  | v :: vs => .comma :: elementTokens (v :: vs)

/-- The tokens of members behind another one. -/
def furtherMembers : List (Literal × Json Literal) → List Token
  | [] => []
  | m :: ms => .comma :: memberTokens (m :: ms)

/-- The tokens of the elements are those of the first and then the further ones. -/
theorem elementTokens_eq_further (v : Json Literal) (vs : List (Json Literal)) :
    elementTokens (v :: vs) = tokensOf v ++ furtherElements vs := by
  cases vs with
  | nil => exact (List.append_nil _).symm
  | cons w vs => rfl

/-- The tokens of the members are those of the first and then the further ones. -/
theorem memberTokens_eq_further (k : Literal) (v : Json Literal) (ms : List (Literal × Json Literal)) :
    memberTokens ((k, v) :: ms) = .string k :: .colon :: (tokensOf v ++ furtherMembers ms) := by
  cases ms with
  | nil => rw [memberTokens, furtherMembers, List.append_nil]
  | cons m ms => rfl

/-! ## Reading tokens -/

namespace Reader

/-- At the begin of an array a value is read as any other element. -/
theorem push?_firstElement (v : Json Literal) : ∃ t ts, tokensOf v = t :: ts ∧ ∀ stack,
    push? (.firstElement stack) t = push? (.value (.element [] :: stack)) t := by
  cases v with
  | null => exact ⟨_, _, rfl, fun _ => rfl⟩
  | bool b => exact ⟨_, _, rfl, fun _ => rfl⟩
  | number digits => exact ⟨_, _, rfl, fun _ => rfl⟩
  | string s => exact ⟨_, _, rfl, fun _ => rfl⟩
  | array elements => exact ⟨_, _, rfl, fun _ => rfl⟩
  | object members => exact ⟨_, _, rfl, fun _ => rfl⟩

/-- The elements of an array are read in the same way when it has just been opened. -/
theorem foldlM_firstElement {vs : List (Json Literal)} (h : vs ≠ []) (ts : List Token)
    (stack : List Frame) :
    (elementTokens vs ++ ts).foldlM push? (.firstElement stack) =
      (elementTokens vs ++ ts).foldlM push? (.value (.element [] :: stack)) := by
  cases vs with
  | nil => exact absurd rfl h
  | cons v vs =>
    obtain ⟨t, rest, htokens, hpush⟩ := push?_firstElement v
    rw [elementTokens_eq_further, htokens]
    simp only [List.cons_append, List.foldlM_cons, hpush]

/-- The members of an object are read in the same way when it has just been opened. -/
theorem foldlM_firstMember {ms : List (Literal × Json Literal)} (h : ms ≠ []) (ts : List Token)
    (stack : List Frame) :
    (memberTokens ms ++ ts).foldlM push? (.firstMember stack) =
      (memberTokens ms ++ ts).foldlM push? (.key stack []) := by
  match ms with
  | [] => exact absurd rfl h
  | [(k, v)] => rfl
  | (k, v) :: m :: ms => rfl

mutual

/-- **The tokens of a value are read as this value**, whatever is open around it. -/
theorem foldlM_tokensOf : ∀ (v : Json Literal) (stack : List Frame),
    (tokensOf v).foldlM push? (.value stack) = some (.after stack v)
  | .null, _ => rfl
  | .bool _, _ => rfl
  | .number _, _ => rfl
  | .string _, _ => rfl
  | .array [], _ => rfl
  | .array (v :: vs), stack => by
    have hopen : push? (.value stack) .openArray = some (.firstElement stack) := rfl
    rw [tokensOf, foldlM_cons_eq hopen, foldlM_firstElement (List.cons_ne_nil _ _)]
    exact foldlM_elementTokens (v :: vs) (List.cons_ne_nil _ _) [] stack
  | .object [], _ => rfl
  | .object (m :: ms), stack => by
    have hopen : push? (.value stack) .openObject = some (.firstMember stack) := rfl
    rw [tokensOf, foldlM_cons_eq hopen, foldlM_firstMember (List.cons_ne_nil _ _)]
    exact foldlM_memberTokens (m :: ms) (List.cons_ne_nil _ _) [] stack

/-- Elements are read behind those before them, up to the end of the array. -/
theorem foldlM_elementTokens : ∀ (vs : List (Json Literal)), vs ≠ [] →
    ∀ (before : List (Json Literal)) (stack : List Frame),
      (elementTokens vs ++ [Token.closeArray]).foldlM push? (.value (.element before :: stack)) =
        some (.after stack (.array (before.reverse ++ vs)))
  | [], h, _, _ => absurd rfl h
  | [v], _, before, stack => by
    have hclose : push? (.after (.element before :: stack) v) .closeArray =
      some (.after stack (.array (v :: before).reverse)) := rfl
    rw [elementTokens, foldlM_append_eq (foldlM_tokensOf v _), foldlM_cons_eq hclose,
      List.reverse_cons]
    rfl
  | v :: w :: vs, _, before, stack => by
    have hcomma : push? (.after (.element before :: stack) v) .comma =
      some (.value (.element (v :: before) :: stack)) := rfl
    have hrest := foldlM_elementTokens (w :: vs) (List.cons_ne_nil _ _) (v :: before) stack
    rw [elementTokens_cons (List.cons_ne_nil w vs), List.append_assoc,
      foldlM_append_eq (foldlM_tokensOf v _), List.cons_append, foldlM_cons_eq hcomma, hrest,
      List.reverse_cons, List.append_assoc]
    rfl

/-- Members are read behind those before them, up to the end of the object. -/
theorem foldlM_memberTokens : ∀ (ms : List (Literal × Json Literal)), ms ≠ [] →
    ∀ (before : List (Literal × Json Literal)) (stack : List Frame),
      (memberTokens ms ++ [Token.closeObject]).foldlM push? (.key stack before) =
        some (.after stack (.object (before.reverse ++ ms)))
  | [], h, _, _ => absurd rfl h
  | [(k, v)], _, before, stack => by
    have hkey : push? (.key stack before) (.string k) = some (.colon stack before k) := rfl
    have hcolon : push? (.colon stack before k) .colon =
      some (.value (.member before k :: stack)) := rfl
    have hclose : push? (.after (.member before k :: stack) v) .closeObject =
      some (.after stack (.object ((k, v) :: before).reverse)) := rfl
    rw [memberTokens, List.cons_append, foldlM_cons_eq hkey, List.cons_append,
      foldlM_cons_eq hcolon, foldlM_append_eq (foldlM_tokensOf v _), foldlM_cons_eq hclose,
      List.reverse_cons]
    rfl
  | (k, v) :: m :: ms, _, before, stack => by
    have hkey : push? (.key stack before) (.string k) = some (.colon stack before k) := rfl
    have hcolon : push? (.colon stack before k) .colon =
      some (.value (.member before k :: stack)) := rfl
    have hcomma : push? (.after (.member before k :: stack) v) .comma =
      some (.key stack ((k, v) :: before)) := rfl
    have hrest := foldlM_memberTokens (m :: ms) (List.cons_ne_nil _ _) ((k, v) :: before) stack
    rw [memberTokens_cons (List.cons_ne_nil m ms), List.cons_append, foldlM_cons_eq hkey,
      List.cons_append, foldlM_cons_eq hcolon, List.append_assoc,
      foldlM_append_eq (foldlM_tokensOf v _), List.cons_append, foldlM_cons_eq hcomma, hrest,
      List.reverse_cons, List.append_assoc]
    rfl

end

end Reader

/-- **Every text of the grammar is read as its value.** -/
theorem read?_of_isElement {v : Json Literal} {text : String} (h : IsElement v text.toList) :
    read? text = some v := by
  have hrun := Reader.foldlM_tokensOf v []
  unfold read?
  rw [tokens?_of_isElement h, Option.bind_eq_bind, Option.bind_some, hrun]
  rfl

/-- **A text of the grammar has one value.** -/
theorem IsElement.unique {v w : Json Literal} {text : String} (hv : IsElement v text.toList)
    (hw : IsElement w text.toList) : v = w :=
  Option.some.inj ((read?_of_isElement hv).symm.trans (read?_of_isElement hw))

end ShiftReduce.Json
