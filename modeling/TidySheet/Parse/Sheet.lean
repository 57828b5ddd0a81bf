import TidySheet.Parse.Braces
import TidySheet.Parse.Lines
import TidySheet.Token.Lexer

/-!
# Reading a stylesheet

`parse` reads a text into the tree of a whole stylesheet. The tree keeps every character, so that
`Node.chars` writes the text back.
-/

set_option autoImplicit false

namespace TidySheet

/-- The top-level nodes of a text of tokens. -/
def sheetNodes (d : Dialect) (ts : List Token) : Except ParseError (List Node) :=
  if d.usesBraces then Braces.nodes d ts else Lines.nodes ts

/-- The tree of a text in the dialect `d`. -/
def parseChars (d : Dialect) (source : List Char) : Except ParseError Node := do
  let ts ← tokens d .origin source
  let ns ← sheetNodes d ts
  return .ofChildren .stylesheet d ns

def parse (d : Dialect) (source : String) : Except ParseError Node :=
  parseChars d source.toList

end TidySheet
