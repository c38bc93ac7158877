import ShiftReduce.Json.Basic

/-! # Tokens of JSON text

The text is cut into tokens one character at a time. Nothing but a token that is still incomplete is
remembered, so a prefix of the text that cannot be continued is rejected at once. -/

namespace ShiftReduce.Json

/-- A token of JSON text. -/
inductive Token where
  /-- an opening square bracket -/
  | openArray
  /-- a closing square bracket -/
  | closeArray
  /-- an opening curly bracket -/
  | openObject
  /-- a closing curly bracket -/
  | closeObject
  /-- what separates elements and members -/
  | comma
  /-- what separates a key from its value -/
  | colon
  /-- the word `null` -/
  | null
  /-- the word `true` or `false` -/
  | bool (b : Bool)
  /-- a number -/
  | number (digits : String)
  /-- a string literal -/
  | string (s : Literal)
  deriving DecidableEq

/-! ## Numbers -/

/-- Where in a number the last character stood. -/
inductive NumberPart where
  /-- the sign -/
  | minus
  /-- a zero with which the number starts -/
  | zero
  /-- the digits before the point, of which the first is not zero -/
  | whole
  /-- the point -/
  | point
  /-- the digits after the point -/
  | fraction
  /-- the letter before the exponent -/
  | exponentMark
  /-- the sign of the exponent -/
  | exponentSign
  /-- the digits of the exponent -/
  | exponent
  deriving DecidableEq

namespace NumberPart

/-- The part in which a number starts. -/
def ofFirst? (c : Char) : Option NumberPart :=
  if c = '-' then some .minus
  else if c = '0' then some .zero
  else if c.isDigit then some .whole
  else none

/-- The part behind the digits before the point. -/
def afterWhole? (c : Char) : Option NumberPart :=
  if c = '.' then some .point else if c = 'e' ∨ c = 'E' then some .exponentMark else none

/-- The part of the next character, if it belongs to the number. -/
def next? : NumberPart → Char → Option NumberPart
  | .minus, c => if c = '0' then some .zero else if c.isDigit then some .whole else none
  | .zero, c => afterWhole? c
  | .whole, c => if c.isDigit then some .whole else afterWhole? c
  | .point, c => if c.isDigit then some .fraction else none
  | .fraction, c =>
    if c.isDigit then some .fraction
    else if c = 'e' ∨ c = 'E' then some .exponentMark
    else none
  | .exponentMark, c =>
    if c = '+' ∨ c = '-' then some .exponentSign
    else if c.isDigit then some .exponent
    else none
  | .exponentSign, c => if c.isDigit then some .exponent else none
  | .exponent, c => if c.isDigit then some .exponent else none

/-- Whether a number may end in this part. -/
def isFinal : NumberPart → Bool
  | .zero | .whole | .fraction | .exponent => true
  | .minus | .point | .exponentMark | .exponentSign => false

end NumberPart

/-! ## The lexer -/

/-- The token that is still incomplete. What was read of it is in reverse. -/
inductive Pending where
  /-- no token has begun -/
  | nothing
  /-- a word, of which these characters are still to come -/
  | word (rest : List Char) (token : Token)
  /-- a number -/
  | number (part : NumberPart) (read : List Char)
  /-- a string literal -/
  | string (read : List Piece)
  /-- a string literal, at the character behind a backslash -/
  | escape (read : List Piece)
  /-- a string literal, in a code unit of which `left` digits are still to come -/
  | unit (read : List Piece) (left value : Nat)

/-- The tokens so far, in reverse, and the one that is still incomplete. -/
structure Lexer where
  /-- the complete tokens, the last one first -/
  tokens : List Token
  /-- the incomplete token -/
  pending : Pending

namespace Lexer

/-- Nothing is read yet. -/
def empty : Lexer := ⟨[], .nothing⟩

/-- What a backslash and a letter stand for. -/
def simpleEscape? (c : Char) : Option Char :=
  if c = '"' ∨ c = '\\' ∨ c = '/' then some c
  else if c = 'b' then some '\x08'
  else if c = 'f' then some '\x0c'
  else if c = 'n' then some '\n'
  else if c = 'r' then some '\r'
  else if c = 't' then some '\t'
  else none

/-- The value of a hexadecimal digit in either case. -/
def hexValue? (c : Char) : Option Nat :=
  if '0' ≤ c ∧ c ≤ '9' then some (c.toNat - '0'.toNat)
  else if 'a' ≤ c ∧ c ≤ 'f' then some (c.toNat - 'a'.toNat + 10)
  else if 'A' ≤ c ∧ c ≤ 'F' then some (c.toNat - 'A'.toNat + 10)
  else none

/-- Reads a character where a token may begin. -/
def begin? (tokens : List Token) (c : Char) : Option Lexer :=
  match c with
  | ' ' | '\t' | '\n' | '\r' => some ⟨tokens, .nothing⟩
  | '[' => some ⟨.openArray :: tokens, .nothing⟩
  | ']' => some ⟨.closeArray :: tokens, .nothing⟩
  | '{' => some ⟨.openObject :: tokens, .nothing⟩
  | '}' => some ⟨.closeObject :: tokens, .nothing⟩
  | ',' => some ⟨.comma :: tokens, .nothing⟩
  | ':' => some ⟨.colon :: tokens, .nothing⟩
  | '"' => some ⟨tokens, .string []⟩
  | 'n' => some ⟨tokens, .word ['u', 'l', 'l'] .null⟩
  | 't' => some ⟨tokens, .word ['r', 'u', 'e'] (.bool true)⟩
  | 'f' => some ⟨tokens, .word ['a', 'l', 's', 'e'] (.bool false)⟩
  | c => (NumberPart.ofFirst? c).map fun part => ⟨tokens, .number part [c]⟩

/-- The token of a number whose characters are given in reverse. -/
def numberToken (read : List Char) : Token := .number (String.ofList read.reverse)

/-- Reads one character. -/
def push? (l : Lexer) (c : Char) : Option Lexer :=
  match l.pending with
  | .nothing => begin? l.tokens c
  | .word (d :: rest) token =>
    if c ≠ d then none
    else if rest.isEmpty then some ⟨token :: l.tokens, .nothing⟩
    else some ⟨l.tokens, .word rest token⟩
  | .word [] _ => none
  | .number part read =>
    match part.next? c with
    | some part => some ⟨l.tokens, .number part (c :: read)⟩
    | none => if part.isFinal then begin? (numberToken read :: l.tokens) c else none
  | .string read =>
    if c = '"' then some ⟨.string read.reverse :: l.tokens, .nothing⟩
    else if c = '\\' then some ⟨l.tokens, .escape read⟩
    else if c.toNat < 0x20 then none
    else some ⟨l.tokens, .string (.char c :: read)⟩
  | .escape read =>
    if c = 'u' then some ⟨l.tokens, .unit read 4 0⟩
    else (simpleEscape? c).map fun d => ⟨l.tokens, .string (.char d :: read)⟩
  | .unit read left value =>
    (hexValue? c).map fun d =>
      let value := 16 * value + d
      if left ≤ 1 then ⟨l.tokens, .string (.unit value :: read)⟩
      else ⟨l.tokens, .unit read (left - 1) value⟩

/-- The tokens, if the text may end here. -/
def finish? (l : Lexer) : Option (List Token) :=
  match l.pending with
  | .nothing => some l.tokens.reverse
  | .number part read =>
    if part.isFinal then some (numberToken read :: l.tokens).reverse else none
  | .word .. | .string .. | .escape .. | .unit .. => none

end Lexer

/-- The tokens of a text, if it consists of tokens. -/
def tokens? (text : String) : Option (List Token) :=
  (text.toList.foldlM Lexer.push? Lexer.empty).bind Lexer.finish?

end ShiftReduce.Json
