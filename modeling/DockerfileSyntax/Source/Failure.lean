import DockerfileSyntax.Source.Position
import DockerfileSyntax.Quote
import DockerfileSyntax.Text.Quoted

/-!
# Failures

Why a text does not match a grammar, and where. A grammar states what it expected as an
`Expectation`; the wording is here and nowhere else.
-/

namespace DockerfileSyntax

/-- What a grammar wanted to read. -/
inductive Expectation where
  /-- this very text, in any letter case if it is a keyword -/
  | exactly (text : Text)
  | newLine
  | escapeChar
  | escapedChar
  | keywordEnd
  | openingQuote
  | closingQuote (quote : Quote)
  | variableName
  | modifier
  | literal
  | literalChar
  | identifier
  | identifierChar
  | separator
  | alternative
  /-- anything else, in the words of the one who asks -/
  | described (label : Text)

/-- The words for an expectation. -/
def Expectation.label : Expectation → Text
  | exactly text => '\'' :: text ++ ['\'']
  | newLine => "new line".toList
  | escapeChar => "escape character".toList
  | escapedChar => "escaped character".toList
  | keywordEnd => "whitespace after instruction name".toList
  | openingQuote => "opening quote".toList
  | closingQuote quote => "closing ".toList ++ [quote.char]
  | variableName => "variable name".toList
  | modifier => "variable modifier".toList
  | literal => "literal".toList
  | literalChar => "literal character".toList
  | identifier => "identifier".toList
  | identifierChar => "identifier character".toList
  | separator => "'=', ':' or whitespace".toList
  | alternative => "one of several alternatives".toList
  | described label => label

/-- Why a text does not match. -/
inductive Mismatch where
  /-- nothing that the grammar allows stands here; `none` is the end of the text -/
  | expected (what : Expectation) (found : Option Char)
  /-- the grammar ended before the text did -/
  | trailing (found : Char)

/-- The words for a mismatch. -/
def Mismatch.message : Mismatch → Text
  | expected what none =>
      "expected ".toList ++ what.label ++ ", found end of input".toList
  | expected what (some found) =>
      "expected ".toList ++ what.label ++ ", found ".toList ++ quoteChar found
  | trailing found => "unexpected ".toList ++ quoteChar found

/-- A mismatch and its position. -/
structure Failure where
  cause : Mismatch
  position : Position

/-- A number in decimal digits. -/
def decimal (n : Nat) : Text :=
  Nat.toDigits 10 n

/-- The words for a failure. -/
def Failure.message (f : Failure) : Text :=
  f.cause.message ++ " at line ".toList ++ decimal f.position.line ++ ", column ".toList ++
    decimal f.position.column

end DockerfileSyntax
