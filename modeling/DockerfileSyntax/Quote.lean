import DockerfileSyntax.Text

/-!
# Quotes

The two characters that may wrap a literal or an identifier.
-/

namespace DockerfileSyntax

/-- A quote character. -/
inductive Quote where
  | single
  | double
deriving DecidableEq

namespace Quote

/-- The quotes in the order in which a grammar tries them. -/
def all : List Quote := [.single, .double]

/-- The character of the quote. -/
def char : Quote → Char
  | single => '\''
  | double => '"'

/-- The quote that a character is. -/
def ofChar? (c : Char) : Option Quote :=
  all.find? (·.char == c)

/-- The mark that an optional quote leaves in the source on either side. -/
def mark : Option Quote → Text
  | some q => [q.char]
  | none => []

@[simp] theorem ofChar?_char (q : Quote) : ofChar? q.char = some q := by
  cases q <;> rfl

end Quote

end DockerfileSyntax
