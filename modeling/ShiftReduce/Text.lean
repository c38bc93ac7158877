/-! # Lines and paragraphs of a report -/

namespace ShiftReduce

/-- The lines of a text, each closed by a line feed. -/
def lines (ls : List String) : String := String.join (ls.map (· ++ "\n"))

/-- Texts with an empty line between each two. -/
def paragraphs (ps : List String) : String := "\n".intercalate ps

/-- No lines make the empty text. -/
@[simp] theorem lines_nil : lines [] = "" := rfl

end ShiftReduce
