import ShiftReduce.Json.Basic

/-! # Writing JSON values

A layout says what stands before an element at a given depth and between a key and its value. Everything
else is the same in all layouts: a string escapes quotes, backslashes and control characters only, and
an array or object without elements has nothing between its brackets. -/

namespace ShiftReduce.Json

/-- The white space of a JSON text. -/
structure Layout where
  /-- what stands before an element or a closing bracket at a depth -/
  indent : Nat → String
  /-- what stands between a key and its value -/
  colon : String

/-- No white space at all. -/
def Layout.compact : Layout := ⟨fun _ => "", ":"⟩

/-- Each element on a line of its own, two spaces further in than what it is in. -/
def Layout.indented : Layout := ⟨fun depth => "\n" ++ String.ofList (List.replicate (2 * depth) ' '), ": "⟩

/-! ## Strings -/

/-- A hexadecimal digit, in lower case. -/
def hexDigit (d : Nat) : Char := if d < 10 then Char.ofNat (48 + d) else Char.ofNat (87 + d)

/-- A character as it is written in a string. -/
def escapeChar (c : Char) : String :=
  if c = '"' then "\\\""
  else if c = '\\' then "\\\\"
  else if c = '\x08' then "\\b"
  else if c = '\t' then "\\t"
  else if c = '\n' then "\\n"
  else if c = '\x0c' then "\\f"
  else if c = '\r' then "\\r"
  else if c.toNat < 0x20 then
    String.ofList ['\\', 'u', '0', '0', hexDigit (c.toNat / 16), hexDigit (c.toNat % 16)]
  else c.toString

/-- A string in quotes. -/
def quoted (s : String) : String := "\"" ++ String.join (s.toList.map escapeChar) ++ "\""

/-! ## Values -/

/-- Parts of an array or object at a depth, between its brackets. -/
def bracketed (layout : Layout) (depth : Nat) (opening closing : String) (parts : List String) :
    String :=
  if parts.isEmpty then opening ++ closing
  else
    let inner := layout.indent (depth + 1)
    opening ++ inner ++ ("," ++ inner).intercalate parts ++ layout.indent depth ++ closing

mutual

/-- The text of a value that starts at a depth. -/
def write (layout : Layout) (depth : Nat) : Json String → String
  | .null => "null"
  | .bool true => "true"
  | .bool false => "false"
  | .number digits => digits
  | .string s => quoted s
  | .array elements => bracketed layout depth "[" "]" (writeElements layout (depth + 1) elements)
  | .object members =>
    bracketed layout depth "\x7b" "\x7d" (writeMembers layout (depth + 1) members)

/-- The texts of elements. -/
def writeElements (layout : Layout) (depth : Nat) : List (Json String) → List String
  | [] => []
  | v :: rest => write layout depth v :: writeElements layout depth rest

/-- The texts of members. -/
def writeMembers (layout : Layout) (depth : Nat) : List (String × Json String) → List String
  | [] => []
  | (k, v) :: rest =>
    (quoted k ++ layout.colon ++ write layout depth v) :: writeMembers layout depth rest

end

/-- The text of a value without white space. -/
def compact (v : Json String) : String := v.write .compact 0

/-- The text of a value with each element on a line of its own. -/
def indented (v : Json String) : String := v.write .indented 0

end ShiftReduce.Json
