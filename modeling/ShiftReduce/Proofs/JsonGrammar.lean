import ShiftReduce.Json.Reader

/-! # The grammar of JSON text

What a JSON text is, by the rules of its grammar and without reading it (`Json.IsElement`): blanks may
stand before and behind each value, a number and a string have one of several spellings, and an object
keeps its members in order, repeated keys included. -/

namespace ShiftReduce.Json

/-! ## Blanks -/

/-- White space. -/
def IsBlank (cs : List Char) : Prop := ∀ c ∈ cs, c = ' ' ∨ c = '\t' ∨ c = '\n' ∨ c = '\r'

/-- No characters are blank space too. -/
theorem isBlank_nil : IsBlank [] := fun _ h => absurd h List.not_mem_nil

/-! ## Numbers -/

/-- One or more digits. -/
def IsDigits (cs : List Char) : Prop := cs ≠ [] ∧ ∀ c ∈ cs, c.isDigit = true

/-- A whole number, which begins with a zero only when it is zero. -/
inductive IsWhole : List Char → Prop
  /-- zero -/
  | zero : IsWhole ['0']
  /-- another digit and perhaps more of them -/
  | digits {c : Char} {cs : List Char} : c ≠ '0' → c.isDigit = true →
    (∀ d ∈ cs, d.isDigit = true) → IsWhole (c :: cs)

/-- What may follow the whole number: nothing, or a point and digits. -/
inductive IsFraction : List Char → Prop
  /-- there is none -/
  | absent : IsFraction []
  /-- digits behind a point -/
  | digits {cs : List Char} : IsDigits cs → IsFraction ('.' :: cs)

/-- What may end a number: nothing, or a letter and digits, which may have a sign. -/
inductive IsExponent : List Char → Prop
  /-- there is none -/
  | absent : IsExponent []
  /-- digits behind a letter and perhaps a sign -/
  | digits {letter : Char} {sign cs : List Char} : letter = 'e' ∨ letter = 'E' →
    sign = [] ∨ sign = ['+'] ∨ sign = ['-'] → IsDigits cs → IsExponent (letter :: (sign ++ cs))

/-- A number. -/
inductive IsNumber : List Char → Prop
  /-- perhaps a sign, a whole number, and what may follow it -/
  | intro {sign whole fraction exponent : List Char} : sign = [] ∨ sign = ['-'] → IsWhole whole →
    IsFraction fraction → IsExponent exponent →
    IsNumber (sign ++ (whole ++ (fraction ++ exponent)))

/-! ## Strings -/

/-- The letters that may be escaped, with what they stand for. -/
def escapes : List (Char × Char) :=
  [('"', '"'), ('\\', '\\'), ('/', '/'), ('b', '\x08'), ('f', '\x0c'), ('n', '\n'), ('r', '\r'),
    ('t', '\t')]

/-- A hexadecimal digit with its value. -/
def IsHexDigit (c : Char) (d : Nat) : Prop :=
  "0123456789abcdef".toList[d]? = some c ∨ "0123456789ABCDEF".toList[d]? = some c

/-- A part of a string literal. -/
inductive IsPiece : Piece → List Char → Prop
  /-- a character that stands for itself -/
  | plain {c : Char} : c ≠ '"' → c ≠ '\\' → 0x20 ≤ c.toNat → IsPiece (.char c) [c]
  /-- a letter behind a backslash -/
  | escaped {c d : Char} : (c, d) ∈ escapes → IsPiece (.char d) ['\\', c]
  /-- a code unit by its number -/
  | unit {c₁ c₂ c₃ c₄ : Char} {d₁ d₂ d₃ d₄ : Nat} : IsHexDigit c₁ d₁ → IsHexDigit c₂ d₂ →
    IsHexDigit c₃ d₃ → IsHexDigit c₄ d₄ →
    IsPiece (.unit (16 * (16 * (16 * d₁ + d₂) + d₃) + d₄)) ['\\', 'u', c₁, c₂, c₃, c₄]

/-- The parts of a string literal, one behind the other. -/
inductive IsPieces : Literal → List Char → Prop
  /-- no part -/
  | nil : IsPieces [] []
  /-- one part and the others -/
  | cons {p : Piece} {l : Literal} {cs ds : List Char} :
    IsPiece p cs → IsPieces l ds → IsPieces (p :: l) (cs ++ ds)

/-- A string literal: its parts in quotes. -/
inductive IsString : Literal → List Char → Prop
  /-- parts in quotes -/
  | intro {l : Literal} {cs : List Char} : IsPieces l cs → IsString l ('"' :: (cs ++ ['"']))

/-! ## Values -/

mutual

/-- A value, without blanks around it. -/
inductive IsValue : Json Literal → List Char → Prop
  /-- the null value -/
  | null : IsValue .null ['n', 'u', 'l', 'l']
  /-- the true value -/
  | true : IsValue (.bool true) ['t', 'r', 'u', 'e']
  /-- the false value -/
  | false : IsValue (.bool false) ['f', 'a', 'l', 's', 'e']
  /-- a number -/
  | number {cs : List Char} : IsNumber cs → IsValue (.number (String.ofList cs)) cs
  /-- a string -/
  | string {l : Literal} {cs : List Char} : IsString l cs → IsValue (.string l) cs
  /-- an array without elements -/
  | emptyArray {b : List Char} : IsBlank b → IsValue (.array []) ('[' :: (b ++ [']']))
  /-- an array with elements -/
  | array {vs : List (Json Literal)} {cs : List Char} :
    IsElements vs cs → IsValue (.array vs) ('[' :: (cs ++ [']']))
  /-- an object without members -/
  | emptyObject {b : List Char} : IsBlank b → IsValue (.object []) ('\x7b' :: (b ++ ['\x7d']))
  /-- an object with members -/
  | object {ms : List (Literal × Json Literal)} {cs : List Char} :
    IsMembers ms cs → IsValue (.object ms) ('\x7b' :: (cs ++ ['\x7d']))

/-- A value with blanks around it. This is also what a whole text is. -/
inductive IsElement : Json Literal → List Char → Prop
  /-- a value between blanks -/
  | intro {b b' : List Char} {v : Json Literal} {cs : List Char} :
    IsBlank b → IsValue v cs → IsBlank b' → IsElement v (b ++ (cs ++ b'))

/-- One or more elements, separated by commas. -/
inductive IsElements : List (Json Literal) → List Char → Prop
  /-- one element -/
  | single {v : Json Literal} {cs : List Char} : IsElement v cs → IsElements [v] cs
  /-- an element before others -/
  | cons {v : Json Literal} {vs : List (Json Literal)} {cs ds : List Char} :
    IsElement v cs → IsElements vs ds → IsElements (v :: vs) (cs ++ ',' :: ds)

/-- A key and a value. -/
inductive IsMember : Literal → Json Literal → List Char → Prop
  /-- a key between blanks, a colon and an element -/
  | intro {b b' : List Char} {k : Literal} {v : Json Literal} {cs ds : List Char} :
    IsBlank b → IsString k cs → IsBlank b' → IsElement v ds →
    IsMember k v (b ++ (cs ++ (b' ++ ':' :: ds)))

/-- One or more members, separated by commas. -/
inductive IsMembers : List (Literal × Json Literal) → List Char → Prop
  /-- one member -/
  | single {k : Literal} {v : Json Literal} {cs : List Char} :
    IsMember k v cs → IsMembers [(k, v)] cs
  /-- a member before others -/
  | cons {k : Literal} {v : Json Literal} {ms : List (Literal × Json Literal)} {cs ds : List Char} :
    IsMember k v cs → IsMembers ms ds → IsMembers ((k, v) :: ms) (cs ++ ',' :: ds)

end

end ShiftReduce.Json
