import DockerfileSyntax.KeyValue

/-!
# The start period of a health check

`--start-period=30s`: the flag that gives a container time before its health counts. The key is a
keyword, so its letter case is free, and the duration is a literal.
-/

namespace DockerfileSyntax

/-- The flag for the start period of a health check. -/
abbrev StartPeriod := KeyValue .keyword .literal

namespace StartPeriod

/-- The key of the flag: `start-period`. -/
def keyName : Text := ['s', 't', 'a', 'r', 't', '-', 'p', 'e', 'r', 'i', 'o', 'd']

/-- Reads the flag, with the given escape character. -/
def parse (escape : Char) (text : Text) : Except Error StartPeriod :=
  KeyValue.parse escape true (Grammar.keyword escape keyName)
    (Grammar.literal escape .ends []) text

/-- The flag with this duration, in double quotes if it holds white space. -/
def create (value : Text) : Except Error StartPeriod := do
  requireNonEmpty .startPeriod value
  parse defaultEscape (flagMark ++ keyName ++ '=' :: canonicalText value)

end StartPeriod

end DockerfileSyntax
