import DockerfileSyntax.Character.Classes
import DockerfileSyntax.Parser
import DockerfileSyntax.Trivia

/-!
# The grammar of trivia

Line ends, line continuations, comments and white space. A line continuation is an escape character
at the end of a line: white space may follow it, nothing else. An escape character before anything
else escapes it, and the two characters are kept as they are.
-/

namespace DockerfileSyntax.Grammar

open DockerfileSyntax.Parser

/-- The end of a line: `\n`, or `\r\n` as one. -/
def newLine : Parser Text :=
  choose .newLine id [['\r', '\n'], ['\n']]

/-- White space within a line, possibly none. -/
def blanks : Parser Text :=
  takeWhile isInlineBlank

/-- The text of an optional line end as trivia. -/
def optionalNewLine : Parser (List Trivia) := do
  match ← optional newLine with
  | some text => return [.newLine text]
  | none => return []

/-- White space within a line, then an optional line end. Never fails. -/
def whitespace : Parser (List Trivia) := do
  let leading ← blanks
  let ending ← optionalNewLine
  return Trivia.ofBlanks leading ++ ending

/-- An escape character, white space and a line end. -/
def continuation (escape : Char) : Parser Continuation := attempt do
  eat [escape]
  let gap ← blanks
  let ending ← newLine
  return ⟨.symbol [escape] :: (blankTokens gap ++ [.newLine ending])⟩

/-- The line continuations that follow each other here, possibly none. -/
def continuations (escape : Char) : Parser (List Continuation) :=
  many (continuation escape)

/-- An escape character and the character that it escapes. It escapes anything but a line end, and
it does not escape where it begins a line continuation. -/
def escapedChar (escape : Char) : Parser Text := do
  if ← sees (continuation escape) then
    fail .escapedChar
  else attempt do
    let mark ← satisfy .escapeChar (· == escape)
    let escaped ← satisfy .escapedChar fun c => !isLineEnd c
    return [mark, escaped]

/-- A character of a class, behind any number of line continuations. -/
def charBelow (escape : Char) (what : Expectation) (holds : Char → Bool) : Parser (List Token) :=
  attempt do
    let breaks ← continuations escape
    let found ← satisfy what holds
    return breaks.map Continuation.toToken ++ [.string [found]]

/-- A comment: `#` up to the end of the line. -/
def comment : Parser Text := do
  if (← peek) = some '#' then takeWhile fun c => !isLineEnd c
  else fail (.exactly ['#'])

/-- A comment with what may precede it, and an optional line end. -/
def commentLine : Parser (List Trivia) := attempt do
  let leading ← whitespace
  let text ← comment
  let ending ← optionalNewLine
  return leading ++ .comment text :: ending

/-- The comment lines that follow each other here, possibly none. -/
def trailingComments : Parser (List Trivia) := do
  let lines ← many commentLine
  return lines.flatten

/-- White space within a line, and a line end. -/
def blankLine : Parser (List Trivia) := attempt do
  let leading ← blanks
  let ending ← newLine
  return Trivia.ofBlanks leading ++ [.newLine ending]

end DockerfileSyntax.Grammar
