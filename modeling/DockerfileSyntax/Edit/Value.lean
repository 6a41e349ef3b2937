import DockerfileSyntax.Edit
import DockerfileSyntax.Grammar.Identifier

/-!
# Editing values

A keyword, an identifier, a literal or the name in a reference takes a new value only if its own
grammar reads the value; otherwise an error says why. A literal without quotes is put into double
quotes when its new value holds white space.
-/

namespace DockerfileSyntax

open Grammar DockerfileSyntax.Parser

/-- The escape character of a Dockerfile that does not choose one. -/
def defaultEscape : Char := '\\'

/-- Reads the whole of a text; a failure to do so causes this error. -/
def readAs {α : Type} (cause : Failure → Error) (p : Parser α) (text : Text) : Except Error α :=
  (complete p text).mapError cause

/-- Reads the whole of a text; a failure to do so is itself the error. -/
def readAll {α : Type} (p : Parser α) (text : Text) : Except Error α := readAs .parse p text

/-- The source text of a literal with the given value. -/
def canonicalText (value : Text) : Text := (Literal.ofValue value).render

namespace Keyword

/-- Sets the text. The line continuations of the old one are dropped. -/
def setText (value : Text) : Edit Keyword Unit := do
  requireNonEmpty .keyword value
  match value.find? fun c => !isKeywordChar c with
  | some char => throw (.invalid .keyword (.notInKeyword char))
  | none => set (Keyword.new value)

end Keyword

namespace Identifier

/-- The rules for the identifiers that an edit may write. -/
def rules (escape : Char) : NameRules := ⟨escape, isIdentifierStart, isIdentifierChar⟩

/-- Sets the text between the quotes, which stay. The text may hold references. -/
def setText (escape : Char) (value : Text) : Edit Identifier Unit := do
  requireNonEmpty .identifier value
  let i ← get
  let children ← readAs (fun failure => .invalid .identifier (.unreadable value failure))
    (identifierContent (rules escape) i.quote) value
  set { i with children }

end Identifier

namespace Literal

/-- The quote that the literal has once it holds a value: its own, or the one the value needs. -/
def quoteWith (l : Literal) (value : Text) : Option Quote :=
  l.quote.or (quoteFor value)

/-- The parts of a literal in the given quote, read from its content. Outside quotes the content
may not hold an excluded character, and it may be empty only if `allowEmpty`. -/
def readContent (field : EditField) (escape : Char) (excluded : List Char) (allowEmpty : Bool)
    (quote : Option Quote) (value : Text) : Except Error (List Token) :=
  if value.isEmpty then
    if quote.isNone && !allowEmpty then .error (.invalid field .empty) else .ok []
  else
    readAs (fun failure => .invalid field (.unreadable value failure))
      (literalContent escape .ends excluded quote) value

/-- Sets the content, and with it the quote that the content needs. -/
def setContent (field : EditField) (escape : Char) (excluded : List Char) (allowEmpty : Bool)
    (value : Text) : Edit Literal Unit := do
  let quote := (← get).quoteWith value
  let children ← readContent field escape excluded allowEmpty quote value
  set (⟨quote, children⟩ : Literal)

/-- Sets the text, which may be empty. -/
def setText (escape : Char) (value : Text) : Edit Literal Unit :=
  setContent .literal escape [] true value

end Literal

namespace Reference

/-- The parts of a reference with the first string among them replaced by a name, or with the name
before them if there is no string. -/
def renameParts (name : Text) (children : List Token) : List Token :=
  match replaceFirst children with
  | some renamed => renamed
  | none => .string name :: children
where
  /-- The parts with the first string replaced, if there is one. -/
  replaceFirst : List Token → Option (List Token)
    | [] => none
    | .leaf .string _ :: tokens => some (.string name :: tokens)
    | token :: tokens => (replaceFirst tokens).map (token :: ·)

/-- Makes it the reference to another variable. -/
def setName (name : Text) : Edit Reference Unit := do
  requireNonEmpty .variableName name
  if isVariableName name then
    modify fun r => { r with children := renameParts name r.children }
  else throw (.invalid .variableName (.notVariableName name))

end Reference

end DockerfileSyntax
