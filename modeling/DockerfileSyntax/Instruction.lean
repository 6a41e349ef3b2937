import DockerfileSyntax.Edit.Value
import DockerfileSyntax.Grammar.Framing

/-!
# Instructions

An instruction is a heading and the tokens of its arguments. It can be renamed, its comments can be
listed and its variables expanded, whatever the arguments mean.
-/

namespace DockerfileSyntax

namespace Heading

/-- The heading as tokens. -/
def tokens (h : Heading) : List Token :=
  h.lead.map Trivia.toToken ++ h.keyword.toToken :: h.gap.map Trivia.toToken

/-- The name of the instruction as it is written, without line continuations. -/
def name (h : Heading) : Text := h.keyword.value

/-- The comments within the heading. -/
def comments (h : Heading) : List Text := (h.lead ++ h.gap).filterMap Trivia.comment?

/-- Sets the name, which is put into upper case and must be a single word. -/
def setName (name : Text) : Edit Heading Unit := do
  requireNonEmpty .instructionName name
  let h ← get
  Edit.within h.keyword (fun keyword => { h with keyword }) (Keyword.setText name.toUpperCase)

end Heading

/-- The text of a comment, if the token is one. -/
def Token.comment? : Token → Option Text
  | .comment text => some text
  | _ => none

/-- A heading and the tokens of the arguments. -/
structure Instruction where
  heading : Heading
  arguments : List Token
deriving DecidableEq

namespace Instruction

/-- The instruction as tokens. -/
def tokens (i : Instruction) : List Token := i.heading.tokens ++ i.arguments

/-- The source text of the instruction. -/
def render (i : Instruction) : Text := Token.renderAll i.tokens

/-- The name of the instruction as it is written, without line continuations. -/
def name (i : Instruction) : Text := i.heading.name

/-- The comments of the instruction, each with its `#`. -/
def comments (i : Instruction) : List Text :=
  i.heading.comments ++ i.arguments.filterMap Token.comment?

/-- Renames the instruction. -/
def setName (name : Text) : Edit Instruction Unit := do
  let i ← get
  Edit.within i.heading (fun heading => { i with heading }) (Heading.setName name)

/-- Expands the references. If one of them fails, the instruction stays as it is. -/
def resolve (env : Environment) : Edit Instruction Unit := do
  let i ← get
  let arguments ← (Token.resolveAll env i.arguments).toExcept
  set { i with arguments }

/-- The source text with references expanded. -/
def resolvedText (i : Instruction) (env : Environment) : Except UnsetVariable Text :=
  Token.resolvedText env i.tokens

end Instruction

end DockerfileSyntax
