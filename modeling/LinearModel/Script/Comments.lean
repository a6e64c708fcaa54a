
/-!
# Comments

A comment is the rest of a line after two slashes, or what stands between a slash with a star and
a star with a slash. A line comment is removed up to the line break, and any other comment is
replaced by a space. Texts in quotes hold no comments.
-/
namespace LinearModel.Script

/-- Where the removal of comments stands. -/
inductive CommentState where
  | code
  | text
  | line
  | block
  deriving DecidableEq, Repr

/-- A text without its comments, from a state on. -/
def stripFrom : CommentState → List Char → List Char
  | _, [] => []
  | .code, '"' :: cs => '"' :: stripFrom .text cs
  | .code, '/' :: '/' :: cs => stripFrom .line cs
  | .code, '/' :: '*' :: cs => ' ' :: stripFrom .block cs
  | .code, c :: cs => c :: stripFrom .code cs
  | .text, '\\' :: c :: cs => '\\' :: c :: stripFrom .text cs
  | .text, '"' :: cs => '"' :: stripFrom .code cs
  | .text, c :: cs => c :: stripFrom .text cs
  | .line, '\n' :: cs => '\n' :: stripFrom .code cs
  | .line, _ :: cs => stripFrom .line cs
  | .block, '*' :: '/' :: cs => stripFrom .code cs
  | .block, _ :: cs => stripFrom .block cs

def stripComments (cs : List Char) : List Char := stripFrom .code cs

end LinearModel.Script
