import DockerfileSyntax.Instruction

/-!
# Build arguments

`ARG name` or `ARG name=value`: the instruction that declares a build argument. An edit changes one
of the three parts, the keyword, the name and the value, and leaves everything around them as it is.
-/

namespace DockerfileSyntax

/-- A build argument, with the escape character that its source text uses. -/
structure Arg where
  heading : Heading
  name : Identifier
  /-- the default value; with `=` and nothing behind it, the value is an empty literal -/
  value : Option Literal
  /-- what follows the declaration -/
  trail : List Trivia
  escape : Char
deriving DecidableEq

namespace Grammar

open DockerfileSyntax.Parser

/-- The name of a build argument: letters, digits and underscores. -/
def argName (escape : Char) : Parser Identifier :=
  identifier ⟨escape, isAlphabetic, isArgNameChar⟩

/-- The name of a build argument and its value, which may be missing behind `=`. -/
def argBody (escape : Char) : Parser (Identifier × Option Literal) := do
  let name ← argName escape
  match ← optional (eat ['=']) with
  | none => return (name, none)
  | some () =>
    let value ← optional (literal escape .ends [])
    return (name, some (value.getD .empty))

/-- The declaration of a build argument. -/
def arg (escape : Char) : Parser Arg := do
  let heading ← heading escape ['A', 'R', 'G']
  let body ← framed escape (argBody escape)
  return {
    heading := { heading with gap := heading.gap ++ body.before }
    name := body.content.1
    value := body.content.2
    trail := body.after
    escape }

end Grammar

namespace Arg

/-- Reads a declaration, with the given escape character. -/
def parse (escape : Char) (text : Text) : Except Error Arg :=
  readAll (Grammar.arg escape) text

/-- The declaration of a name with an optional value, in double quotes if it holds white space. -/
def create (name : Text) (value : Option Text) : Except Error Arg := do
  requireNonEmpty .argName name
  let assigned := match value with
    | some value => '=' :: canonicalText value
    | none => []
  parse defaultEscape (['A', 'R', 'G', ' '] ++ name ++ assigned)

/-- The name and the value as tokens. -/
def bodyTokens (a : Arg) : List Token :=
  a.name.toToken :: match a.value with
    | some value => [.punctuation ['='], value.toToken]
    | none => []

/-- The instruction that the declaration is. -/
def toInstruction (a : Arg) : Instruction :=
  ⟨a.heading, a.bodyTokens ++ a.trail.map Trivia.toToken⟩

/-- The declaration as tokens. -/
def tokens (a : Arg) : List Token := a.toInstruction.tokens

/-- The source text of the declaration. -/
def render (a : Arg) : Text := Token.renderAll a.tokens

/-- The name of the argument. -/
def argName (a : Arg) : Text := a.name.value

/-- The value of the argument; none without `=`. -/
def argValue (a : Arg) : Option Text := a.value.map Literal.value

/-- The comments of the instruction, each with its `#`. -/
def comments (a : Arg) : List Text := a.heading.comments ++ a.trail.filterMap Trivia.comment?

/-- Renames the argument within the quotes that its name has. -/
def setArgName (name : Text) : Edit Arg Unit := do
  requireNonEmpty .argName name
  let a ← get
  let found ← readAs (fun failure => .invalid .argName (.malformed failure))
    (Grammar.argName a.escape) name
  if found.quote.isSome then throw (.invalid .argName (.quotedName name))
  else set { a with name := { a.name with children := found.children } }

/-- Sets the value, adds one behind the name, or removes it together with its `=`. -/
def setArgValue : Option Text → Edit Arg Unit
  | none => modify fun a => { a with value := none }
  | some text => do
    let a ← get
    let setting := Literal.setContent .argValue a.escape [] true text
    match a.value with
    | some value => Edit.within value (fun value => { a with value := some value }) setting
    | none =>
      let value ← Edit.edited setting .empty
      set { a with value := some value }

/-- Renames the instruction itself. -/
def setInstructionName (name : Text) : Edit Arg Unit := do
  let a ← get
  Edit.within a.heading (fun heading => { a with heading }) (Heading.setName name)

/-- Expands the references in the name and the value. If one of them fails, the declaration stays as
it is. -/
def resolve (env : Environment) : Edit Arg Unit := do
  let a ← get
  let name ← a.name.resolve env
  let value ← a.value.mapM (·.resolve env)
  set { a with name, value }

/-- The source text with references expanded. -/
def resolvedText (a : Arg) (env : Environment) : Except UnsetVariable Text :=
  Token.resolvedText env a.tokens

end Arg

end DockerfileSyntax
