import DockerfileSyntax.Source.Failure

/-!
# Cursors

A `Place` is a point in a source text: what is left to read, how many bytes lie before it, and its
line and column. A `Cursor` is a place together with the failure recorded furthest into the text.
Alternatives go back to an earlier place and keep the record, so that a failed reading points at
the first character that no alternative could match.
-/

namespace DockerfileSyntax

/-- A point in a source text. -/
structure Place where
  /-- the text that is still to be read -/
  rest : Text
  /-- the number of characters still to be read, so that progress shows without counting them -/
  left : Nat
  /-- the number of bytes before this point -/
  offset : Nat
  position : Position
  left_eq : left = rest.length

namespace Place

/-- The beginning of a text. -/
def start (text : Text) : Place := ⟨text, text.length, 0, .start, rfl⟩

/-- The place behind `t`, a beginning of the rest. -/
def pass (p : Place) (t : Text) : Place where
  rest := p.rest.drop t.length
  left := p.left - t.length
  offset := p.offset + t.utf8Length
  position := p.position.after t
  left_eq := by simp [p.left_eq]

end Place

/-- A place, and the failure recorded furthest into the text. -/
structure Cursor extends Place where
  furthest : Option Failure

namespace Cursor

/-- A cursor at the beginning of a text. -/
def start (text : Text) : Cursor := ⟨.start text, none⟩

/-- The character under the cursor. -/
def peek (c : Cursor) : Option Char := c.rest.head?

/-- The character `n` places further on. -/
def peekAt (c : Cursor) (n : Nat) : Option Char := c.rest[n]?

/-- Nothing is left to read. -/
def atEnd (c : Cursor) : Bool := c.rest.isEmpty

/-- The cursor moved over `t`, a beginning of the rest. -/
def pass (c : Cursor) (t : Text) : Cursor := { c with toPlace := c.toPlace.pass t }

/-- The cursor moved over one character, if there is one. -/
def advance (c : Cursor) : Cursor := c.pass (c.rest.take 1)

/-- The cursor moved over the longest run of characters of a class. -/
def skipWhile (c : Cursor) (holds : Char → Bool) : Cursor := c.pass (c.rest.takeWhile holds)

/-- The cursor taken to a place of the same text, its record kept. -/
def goTo (c : Cursor) (p : Place) : Cursor := { c with toPlace := p }

/-- The failure to find something here. -/
def failure (c : Cursor) (what : Expectation) : Failure :=
  ⟨.expected what c.peek, c.position⟩

/-- Records a failure, unless one is recorded at the same position or a later one. -/
def record (c : Cursor) (f : Failure) : Cursor :=
  match c.furthest with
  | none => { c with furthest := some f }
  | some g => if g.position < f.position then { c with furthest := some f } else c

end Cursor

end DockerfileSyntax
