/-! # JSON values

An object keeps its members in order and may repeat a key, and a number is the text it is written with.
The type of strings is a parameter: a value to be written holds text, while a value just read holds
string literals, which do not all denote text. -/

namespace ShiftReduce

/-- A JSON value with strings of type `σ`. -/
inductive Json (σ : Type) where
  /-- the null value -/
  | null
  /-- a truth value -/
  | bool (b : Bool)
  /-- a number, by the text it is written with -/
  | number (digits : String)
  /-- a string -/
  | string (s : σ)
  /-- a list of values -/
  | array (elements : List (Json σ))
  /-- members in order, keys not necessarily distinct -/
  | object (members : List (σ × Json σ))

namespace Json

variable {σ : Type}

/-- The JSON number of a natural number. -/
def ofNat (n : Nat) : Json σ := .number (toString n)

/-- The array of the strings in a list. -/
def ofStrings (l : List σ) : Json σ := .array (l.map .string)

/-! ## Strings that denote text

A string literal may name UTF-16 code units. A pair of surrogates is one character; a surrogate that is
not half of such a pair denotes nothing. -/

/-- A part of a string literal: a character, or a UTF-16 code unit given by its number. -/
inductive Piece where
  /-- a character that stands for itself or was escaped by a letter -/
  | char (c : Char)
  /-- a code unit that was escaped by its number -/
  | unit (u : Nat)
  deriving DecidableEq

/-- A string literal. -/
abbrev Literal := List Piece

/-- The code unit is the first half of a pair. -/
def isHighSurrogate (u : Nat) : Bool := 0xD800 ≤ u && u < 0xDC00

/-- The code unit is the second half of a pair. -/
def isLowSurrogate (u : Nat) : Bool := 0xDC00 ≤ u && u < 0xE000

/-- The character that a pair of surrogates stands for. -/
def joinSurrogates (high low : Nat) : Char :=
  Char.ofNat (0x10000 + (high - 0xD800) * 0x400 + (low - 0xDC00))

/-- The characters that a literal denotes, behind those in `done`, which is in reverse. -/
def Literal.chars? (done : List Char) : Literal → Option (List Char)
  | [] => some done.reverse
  | .char c :: rest => chars? (c :: done) rest
  | .unit u :: .unit v :: rest =>
    if isHighSurrogate u then
      if isLowSurrogate v then chars? (joinSurrogates u v :: done) rest else none
    else if isLowSurrogate u then none
    else chars? (Char.ofNat u :: done) (.unit v :: rest)
  | .unit u :: rest =>
    if isHighSurrogate u || isLowSurrogate u then none else chars? (Char.ofNat u :: done) rest

/-- The text that a literal denotes, if it denotes any. -/
def Literal.text? (l : Literal) : Option String := (l.chars? []).map String.ofList

end Json

end ShiftReduce
