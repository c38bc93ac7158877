import ShiftReduce.Json.Reader
import ShiftReduce.Json.Writer
import ShiftReduce.RuleDef

/-! # Rule lists as JSON

A rule list is an array of rules. A rule is written as an object with the members `head` and `body`. It
may be read from an object in which `body` may be missing and other members are skipped, or from an
array of the head and perhaps the body. -/

namespace ShiftReduce

open Json (Literal)

/-! ## Writing -/

/-- A rule as a JSON value. -/
def RuleDef.toJson (d : RuleDef) : Json String :=
  .object [("head", .string d.head), ("body", .ofStrings d.body)]

/-- A rule list as a JSON value. -/
def ruleListToJson (defs : List RuleDef) : Json String := .array (defs.map RuleDef.toJson)

/-! ## Reading -/

/-- The text that a JSON value is. -/
def textOfJson? : Json Literal → Option String
  | .string s => s.text?
  | _ => none

/-- The body that a JSON value is: an array of texts. -/
def bodyOfJson? : Json Literal → Option (List String)
  | .array elements => elements.mapM textOfJson?
  | _ => none

/-- The members of a rule that have been met so far. -/
structure RuleMembers where
  /-- the head -/
  head : Option String := none
  /-- the body -/
  body : Option (List String) := none

/-- Reads one more member; none of the two may come twice. -/
def RuleMembers.add? (m : RuleMembers) (key : Literal) (v : Json Literal) : Option RuleMembers :=
  match key.text? with
  | none => none
  | some "head" => if m.head.isSome then none else
      (textOfJson? v).map fun head => { m with head := some head }
  | some "body" => if m.body.isSome then none else
      (bodyOfJson? v).map fun body => { m with body := some body }
  | some _ => some m

/-- The rule that a JSON value is. -/
def RuleDef.ofJson? : Json Literal → Option RuleDef
  | .object members => do
    let m ← members.foldlM (fun m e => m.add? e.1 e.2) ({} : RuleMembers)
    let head ← m.head
    some ⟨head, m.body.getD []⟩
  | .array [head] => (textOfJson? head).map (⟨·, []⟩)
  | .array [head, body] => do some ⟨← textOfJson? head, ← bodyOfJson? body⟩
  | _ => none

/-- The rule list that a JSON value is. -/
def ruleListOfJson? : Json Literal → Option (List RuleDef)
  | .array elements => elements.mapM RuleDef.ofJson?
  | _ => none

/-- The rule list that a text is. -/
def readRuleList? (text : String) : Option (List RuleDef) :=
  (Json.read? text).bind ruleListOfJson?

end ShiftReduce
