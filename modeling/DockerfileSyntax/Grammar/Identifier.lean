import DockerfileSyntax.Character.Case
import DockerfileSyntax.Grammar.Literal

/-!
# The grammar of identifiers and keywords

An identifier has a first character of one class and later ones of another. A line continuation may
stand before each later character, and a later character may be escaped. An aggregate alternates
such runs with variable references. A keyword is a fixed word in any letter case, which may be
broken over lines too.
-/

namespace DockerfileSyntax

/-- The classes of the first and of the later characters of an identifier. -/
structure NameRules where
  escape : Char
  first : Char → Bool
  later : Char → Bool

namespace Grammar

open DockerfileSyntax.Parser

/-- The characters that cannot stand unescaped in an identifier within this quote. -/
def excludedIn : Option Quote → List Char
  | some quote => [quote.char]
  | none => Quote.all.map Quote.char

/-- A later character of an identifier. -/
def laterChar (rules : NameRules) (excluded : List Char) : Parser (List Token) :=
  firstOf [
    charBelow rules.escape .identifierChar fun c => rules.later c && !excluded.contains c,
    do let escaped ← escapedChar rules.escape; return [.string escaped]]

/-- A first character and any number of later ones. -/
def nameRun (rules : NameRules) (excluded : List Char) : Parser (List Token) := attempt do
  let head ← satisfy .identifier fun c => rules.first c && !excluded.contains c
  let tail ← many (laterChar rules excluded)
  return mergeStrings (.string [head] :: tail.flatten)

/-- An identifier without references, with or without quotes. -/
def identifier (rules : NameRules) : Parser Identifier := do
  let (quote, children) ← inOptionalQuotes fun quote => nameRun rules (excludedIn quote)
  return ⟨quote, children⟩

/-- The parts of an identifier whose runs may alternate with references. -/
def identifierContent (rules : NameRules) (quote : Option Quote) : Parser (List Token) := do
  let parts ← many1 (firstOf [
    do let found ← reference rules.escape; return [found.toToken],
    nameRun rules (excludedIn quote)])
  return mergeStrings parts.flatten

/-- An identifier whose runs may alternate with references, with or without quotes. -/
def identifierAggregate (rules : NameRules) : Parser Identifier := do
  let (quote, children) ← inOptionalQuotes (identifierContent rules)
  return ⟨quote, children⟩

/-- The same letter, whatever its case. -/
def sameLetter (c d : Char) : Bool :=
  lowerCase c == lowerCase d

/-- The later characters of a keyword. -/
def keywordTail (escape : Char) (what : Expectation) : Text → Parser (List Token)
  | [] => return []
  | letter :: letters => do
    let found ← charBelow escape what (sameLetter · letter)
    let others ← keywordTail escape what letters
    return found ++ others

/-- A keyword in any letter case. A line continuation may stand before each letter but the first. -/
def keyword (escape : Char) (name : Text) : Parser Keyword := attempt do
  match name with
  | [] => return ⟨[]⟩
  | letter :: letters =>
    let head ← satisfy (.exactly name) (sameLetter · letter)
    let tail ← keywordTail escape (.exactly name) letters
    return ⟨mergeStrings (.string [head] :: tail)⟩

end Grammar

end DockerfileSyntax
