import LinearModel.Text.Letter
import LinearModel.Text.Digit

/-!
# Words

An identifier is a run of word characters that opens with a letter or an underscore.
-/
namespace LinearModel.Text

/-- A character that continues an identifier. -/
def isWordChar (c : Char) : Bool :=
  isLetter c || isAnyDigit c || inRanges numberSigns c || c == '_'

/-- A character that opens an identifier. -/
def isWordStart (c : Char) : Bool := isLetter c || c == '_'

/-- An ASCII letter or an underscore. -/
def isAsciiWordStart (c : Char) : Bool := c.isAlpha || c == '_'

end LinearModel.Text
