import ShiftReduce.Json.Token

/-! # Reading JSON values

A value is put together from tokens one at a time, with the arrays and objects that are still open on a
stack, so that nesting may be of any depth. -/

namespace ShiftReduce.Json

/-- An array or object that is still open. What was read of it is in reverse. -/
inductive Frame where
  /-- an array with the elements before the next one -/
  | element (before : List (Json Literal))
  /-- an object with the members before the next one, and the key of that one -/
  | member (before : List (Literal × Json Literal)) (key : Literal)

/-- What is expected next, inside the arrays and objects on the stack. -/
inductive Reader where
  /-- a value -/
  | value (stack : List Frame)
  /-- a value or the end of an array that has just been opened -/
  | firstElement (stack : List Frame)
  /-- a key or the end of an object that has just been opened -/
  | firstMember (stack : List Frame)
  /-- the key of a member behind others -/
  | key (stack : List Frame) (before : List (Literal × Json Literal))
  /-- the colon behind a key -/
  | colon (stack : List Frame) (before : List (Literal × Json Literal)) (key : Literal)
  /-- what follows a complete value -/
  | after (stack : List Frame) (value : Json Literal)

namespace Reader

/-- Reads a token where a value begins. -/
def begin? (stack : List Frame) : Token → Option Reader
  | .null => some (.after stack .null)
  | .bool b => some (.after stack (.bool b))
  | .number digits => some (.after stack (.number digits))
  | .string s => some (.after stack (.string s))
  | .openArray => some (.firstElement stack)
  | .openObject => some (.firstMember stack)
  | .closeArray | .closeObject | .comma | .colon => none

/-- Reads one token. -/
def push? : Reader → Token → Option Reader
  | .value stack, t => begin? stack t
  | .firstElement stack, .closeArray => some (.after stack (.array []))
  | .firstElement stack, t => begin? (.element [] :: stack) t
  | .firstMember stack, .closeObject => some (.after stack (.object []))
  | .firstMember stack, .string k => some (.colon stack [] k)
  | .key stack before, .string k => some (.colon stack before k)
  | .colon stack before k, .colon => some (.value (.member before k :: stack))
  | .after (.element before :: stack) v, .comma => some (.value (.element (v :: before) :: stack))
  | .after (.element before :: stack) v, .closeArray =>
    some (.after stack (.array (v :: before).reverse))
  | .after (.member before k :: stack) v, .comma => some (.key stack ((k, v) :: before))
  | .after (.member before k :: stack) v, .closeObject =>
    some (.after stack (.object ((k, v) :: before).reverse))
  | .firstMember _, _ | .key _ _, _ | .colon _ _ _, _ | .after _ _, _ => none

/-- The value, if it is complete. -/
def finish? : Reader → Option (Json Literal)
  | .after [] v => some v
  | _ => none

end Reader

/-- The value that a text denotes, with its strings as literals. -/
def read? (text : String) : Option (Json Literal) := do
  let tokens ← tokens? text
  let reader ← tokens.foldlM Reader.push? (.value [])
  reader.finish?

/-! ## Text -/

mutual

/-- The value with the text of each literal, if all literals denote text. -/
def texts? : Json Literal → Option (Json String)
  | .null => some .null
  | .bool b => some (.bool b)
  | .number digits => some (.number digits)
  | .string s => s.text?.map .string
  | .array elements => (elementTexts? elements).map .array
  | .object members => (memberTexts? members).map .object

/-- The elements with the text of each literal. -/
def elementTexts? : List (Json Literal) → Option (List (Json String))
  | [] => some []
  | v :: rest => do some ((← texts? v) :: (← elementTexts? rest))

/-- The members with the text of each literal. -/
def memberTexts? : List (Literal × Json Literal) → Option (List (String × Json String))
  | [] => some []
  | (k, v) :: rest => do some ((← k.text?, ← texts? v) :: (← memberTexts? rest))

end

/-- The value that a text denotes, if all strings in it denote text. -/
def parse? (text : String) : Option (Json String) := (read? text).bind texts?

end ShiftReduce.Json
