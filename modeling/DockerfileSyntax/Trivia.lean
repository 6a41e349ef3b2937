import DockerfileSyntax.Token.Payload

/-!
# Trivia

What may surround the parts of an instruction without meaning anything to it: white space, line
ends, comments and line continuations. A list of trivia holds no keyword, name or value by its type.
-/

namespace DockerfileSyntax

/-- A piece of source text that an instruction does not depend on. -/
inductive Trivia where
  | whitespace (text : Text)
  | newLine (text : Text)
  | comment (text : Text)
  | continuation (continuation : Continuation)
deriving DecidableEq

namespace Trivia

/-- A piece of trivia as a token. -/
def toToken : Trivia → Token
  | whitespace text => .whitespace text
  | newLine text => .newLine text
  | comment text => .comment text
  | continuation c => c.toToken

/-- The text of a comment, its `#` included. -/
def comment? : Trivia → Option Text
  | comment text => some text
  | _ => none

/-- White space as trivia, if there is any. -/
def ofBlanks (blanks : Text) : List Trivia :=
  if blanks.isEmpty then [] else [.whitespace blanks]

end Trivia

end DockerfileSyntax
