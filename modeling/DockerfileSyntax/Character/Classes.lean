import DockerfileSyntax.Character.Alphabetic
import DockerfileSyntax.Character.Blank
import DockerfileSyntax.Character.Numeric
import DockerfileSyntax.Text

/-!
# Character classes of a Dockerfile

The classes that the grammars of keywords, identifiers and variable names are made of. Keywords and
identifiers admit the letters and numbers of every script, variable names those of ASCII only.
-/

namespace DockerfileSyntax

/-- A letter or a number of any script. -/
def isAlphanumeric (c : Char) : Bool :=
  isAlphabetic c || isNumeric c

/-- One of the two characters that line ends are made of. -/
def isLineEnd (c : Char) : Bool :=
  c == '\n' || c == '\r'

/-- White space that does not end a line. -/
def isInlineBlank (c : Char) : Bool :=
  isBlank c && !isLineEnd c

/-- A character of a keyword, such as the name of an instruction or a flag. -/
def isKeywordChar (c : Char) : Bool :=
  isAlphanumeric c || c == '-' || c == '_'

/-- The first character of an identifier. -/
def isIdentifierStart (c : Char) : Bool :=
  isAlphabetic c || c == '_'

/-- A later character of an identifier. -/
def isIdentifierChar (c : Char) : Bool :=
  isAlphanumeric c || c == '_' || c == '-' || c == '.'

/-- A later character of the name of a build argument. -/
def isArgNameChar (c : Char) : Bool :=
  isAlphanumeric c || c == '_'

/-- The first character of a variable name. -/
def isVariableNameStart (c : Char) : Bool :=
  c.isAlpha || c == '_'

/-- A later character of a variable name. -/
def isVariableNameChar (c : Char) : Bool :=
  c.isAlphanum || c == '_'

/-- A name that a variable may have: a letter or an underscore, then letters, digits and
underscores. -/
def isVariableName : Text → Bool
  | [] => false
  | c :: cs => isVariableNameStart c && cs.all isVariableNameChar

end DockerfileSyntax
