import DockerfileSyntax.Character.Blank
import DockerfileSyntax.Modifier
import DockerfileSyntax.Token.Rendering

/-!
# Nodes by kind

Each kind of node has a record of its own: what is true of every literal is said of `Literal`, and a
place that only a literal can take has that type. A record and its token carry the same data.
-/

namespace DockerfileSyntax

/-- A break of a line within an instruction: an escape character, white space, a line end. -/
structure Continuation where
  children : List Token
deriving DecidableEq

/-- A reserved word, read in any letter case. -/
structure Keyword where
  children : List Token
deriving DecidableEq

/-- A name, with the quote that wraps it. -/
structure Identifier where
  quote : Option Quote
  children : List Token
deriving DecidableEq

/-- A text that may refer to variables, with the quote that wraps it. -/
structure Literal where
  quote : Option Quote
  children : List Token
deriving DecidableEq

/-- A reference to a variable. Its parts are a name and, if it is braced, perhaps a modifier symbol
and a literal that holds the word. -/
structure Reference where
  braced : Bool
  children : List Token
deriving DecidableEq

/-- The quote without which a value would not be read as one literal: white space needs one. -/
def quoteFor (value : Text) : Option Quote :=
  if value.any isBlank then some .double else none

/-! ## Continuations -/

namespace Continuation

def toToken (c : Continuation) : Token := .continuation c.children

/-- A continuation made of an escape character and a line end. -/
def new (escape : Char) (lineEnd : Text) : Continuation :=
  ⟨[.symbol [escape], .newLine lineEnd]⟩

/-- The first character of the first symbol with text that is among the parts. -/
def escape? (c : Continuation) : Option Char :=
  c.children.findSome? fun | .symbol text => text.head? | _ => none

/-- The first line end that is among the parts. -/
def lineEnd? (c : Continuation) : Option Text :=
  c.children.findSome? fun | .newLine text => some text | _ => none

end Continuation

/-! ## Keywords -/

namespace Keyword

def toToken (k : Keyword) : Token := .keyword k.children

def render (k : Keyword) : Text := k.toToken.render

def value (k : Keyword) : Text := k.toToken.value

/-- A keyword without line continuations. -/
def new (value : Text) : Keyword := ⟨[.string value]⟩

end Keyword

/-! ## Identifiers -/

namespace Identifier

def toToken (i : Identifier) : Token := .identifier i.quote i.children

def render (i : Identifier) : Text := i.toToken.render

def value (i : Identifier) : Text := i.toToken.value

/-- An identifier without quotes and references. -/
def new (value : Text) : Identifier := ⟨none, [.string value]⟩

/-- An identifier with this value, in double quotes if it holds white space. -/
def ofValue (value : Text) : Identifier := ⟨quoteFor value, [.string value]⟩

end Identifier

/-! ## Literals -/

namespace Literal

def toToken (l : Literal) : Token := .literal l.quote l.children

def render (l : Literal) : Text := l.toToken.render

def value (l : Literal) : Text := l.toToken.value

/-- The literal without quotes and parts. -/
def empty : Literal := ⟨none, []⟩

/-- A literal without quotes and references. -/
def new (value : Text) : Literal := ⟨none, mergeStrings [.string value]⟩

/-- A literal without references, wrapped in a quote. -/
def quoted (value : Text) (quote : Quote) : Literal := { new value with quote := some quote }

/-- A literal with this value, in double quotes if it holds white space. -/
def ofValue (value : Text) : Literal := { new value with quote := quoteFor value }

/-- The references that are parts of the literal, those within words left out. -/
def references (l : Literal) : List Reference :=
  l.children.filterMap fun
    | .reference braced children => some ⟨braced, children⟩
    | _ => none

end Literal

/-! ## References -/

namespace Reference

def toToken (r : Reference) : Token := .reference r.braced r.children

def render (r : Reference) : Text := r.toToken.render

def value (r : Reference) : Text := r.toToken.value

/-- A reference without braces. -/
def new (name : Text) : Reference := ⟨false, [.string name]⟩

/-- A reference in braces, with an optional modifier and its word. -/
def inBraces (name : Text) (modified : Option (Modifier × Literal)) : Reference :=
  match modified with
  | none => ⟨true, [.string name]⟩
  | some (modifier, word) => ⟨true, [.string name, .symbol modifier.symbol, word.toToken]⟩

/-- The name of the variable: the first string among the parts. -/
def name (r : Reference) : Text :=
  (r.children.findSome? fun | .string text => some text | _ => none).getD []

/-- The first modifier among the parts. -/
def modifier? (r : Reference) : Option Modifier :=
  r.children.findSome? fun | .symbol text => Modifier.ofSymbol? text | _ => none

/-- The word: the first literal among the parts. -/
def word? (r : Reference) : Option Literal :=
  r.children.findSome? fun | .literal quote children => some ⟨quote, children⟩ | _ => none

end Reference

end DockerfileSyntax
