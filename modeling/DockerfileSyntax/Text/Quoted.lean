import DockerfileSyntax.Text
import DockerfileSyntax.Character.Printable

/-!
# Quoted text

Messages show a character or a text between quotes. The tab, the two line end characters, the
backslash, NUL and the quote itself are escaped by a backslash; an extender or an unprintable
character is shown by its code point in lower case hexadecimal; every other character stands for
itself.
-/

namespace DockerfileSyntax

/-- The digits of a number in lower case hexadecimal, without leading zeros. -/
def hexadecimal (n : Nat) : Text :=
  Nat.toDigits 16 n

/-- One character of a text between the given quotes. -/
def escapeChar (quote c : Char) : Text :=
  if c = '\x00' then ['\\', '0']
  else if c = '\t' then ['\\', 't']
  else if c = '\r' then ['\\', 'r']
  else if c = '\n' then ['\\', 'n']
  else if c = quote || c = '\\' then ['\\', c]
  else if isExtender c || !isPrintable c then
    ['\\', 'u', '\x7b'] ++ hexadecimal c.toNat ++ ['\x7d']
  else [c]

/-- A character between apostrophes. -/
def quoteChar (c : Char) : Text :=
  '\'' :: escapeChar '\'' c ++ ['\'']

/-- A text between double quotes. -/
def quoteText (t : Text) : Text :=
  '"' :: t.flatMap (escapeChar '"') ++ ['"']

end DockerfileSyntax
