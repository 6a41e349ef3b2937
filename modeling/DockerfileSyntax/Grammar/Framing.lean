import DockerfileSyntax.Grammar.Identifier

/-!
# The grammar around an instruction

An instruction begins with a keyword. White space may stand on either side of it, and behind it one
line continuation, with any number of comment lines and blank lines below. The arguments end with
white space, a line continuation and a line end, all optional, and comment lines may follow.
-/

namespace DockerfileSyntax

/-- The beginning of an instruction, up to its arguments. -/
structure Heading where
  /-- what stands before the keyword -/
  lead : List Trivia
  keyword : Keyword
  /-- what stands between the keyword and the arguments -/
  gap : List Trivia
deriving DecidableEq

/-- Arguments of an instruction, with the trivia around them. -/
structure Framed (α : Type) where
  before : List Trivia
  content : α
  after : List Trivia

namespace Grammar

open DockerfileSyntax.Parser

/-- White space within a line as trivia, possibly none. -/
def blankRun : Parser (List Trivia) := do
  let found ← blanks
  return Trivia.ofBlanks found

/-- An optional line continuation. -/
def optionalContinuation (escape : Char) : Parser (List Trivia) := do
  match ← optional (continuation escape) with
  | some found => return [.continuation found]
  | none => return []

/-- The end of the keyword of an instruction: white space, a line end, the escape character or the
end of the text. -/
def keywordEnd (escape : Char) : Parser Unit := do
  match ← peek with
  | none => return ()
  | some found =>
    if isInlineBlank found || isLineEnd found || found == escape then return ()
    else fail .keywordEnd

/-- Comment lines and blank lines, possibly none. -/
def interludes : Parser (List Trivia) := do
  let lines ← many (firstOf [commentLine, blankLine])
  return lines.flatten

/-- The beginning of the instruction with this name. -/
def heading (escape : Char) (name : Text) : Parser Heading := do
  let lead ← blankRun
  let found ← keyword escape name
  keywordEnd escape
  let gap ← blankRun
  match ← optional (continuation escape) with
  | none => return ⟨lead, found, gap⟩
  | some break_ =>
    let below ← interludes
    return ⟨lead, found, gap ++ .continuation break_ :: below⟩

/-- Arguments, with the white space around them and what may end an instruction. -/
def framed {α : Type} (escape : Char) (arguments : Parser α) : Parser (Framed α) := do
  let before ← blankRun
  let content ← arguments
  let gap ← blankRun
  let break_ ← optionalContinuation escape
  let ending ← optionalNewLine
  let comments ← trailingComments
  return ⟨before, content, gap ++ break_ ++ ending ++ comments⟩

end Grammar

end DockerfileSyntax
