import DockerfileSyntax.Text

/-!
# Modifiers

A braced variable reference may hold a modifier and a word, as in `${NAME:-word}`. A modifier says
what the word is for, and with a colon an empty value counts as unset.
-/

namespace DockerfileSyntax

/-- What the word of a reference is for. -/
inductive WordUse where
  /-- the text that stands in for an unset variable -/
  | fallback
  /-- the text that replaces the value of a set variable -/
  | alternate
  /-- the message with which an unset variable is refused -/
  | requirement
deriving DecidableEq

/-- A modifier: the use of its word, and whether an empty value counts as unset. -/
structure Modifier where
  use : WordUse
  emptyIsUnset : Bool
deriving DecidableEq

namespace Modifier

/-- The modifiers, those with a colon first, as they are tried in this order. -/
def all : List Modifier :=
  [⟨.fallback, true⟩, ⟨.alternate, true⟩, ⟨.requirement, true⟩,
   ⟨.fallback, false⟩, ⟨.alternate, false⟩, ⟨.requirement, false⟩]

/-- The character that stands for a use. -/
def useChar : WordUse → Char
  | .fallback => '-'
  | .alternate => '+'
  | .requirement => '?'

/-- How a modifier is written. -/
def symbol (m : Modifier) : Text :=
  if m.emptyIsUnset then [':', useChar m.use] else [useChar m.use]

/-- The modifier that a text is. -/
def ofSymbol? (t : Text) : Option Modifier :=
  all.find? (·.symbol == t)

@[simp] theorem ofSymbol?_symbol (m : Modifier) : ofSymbol? m.symbol = some m := by
  obtain ⟨use, colon⟩ := m
  cases use <;> cases colon <;> rfl

end Modifier

end DockerfileSyntax
