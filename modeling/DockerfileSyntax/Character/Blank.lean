import DockerfileSyntax.Character.Ranges

/-!
# White space

`isBlank` is the Unicode property White_Space. It has ten ranges, line ends among them; the
characters without width, such as U+200B and U+FEFF, are not in it.
-/

namespace DockerfileSyntax

/-- The code points of white space. -/
def blankRanges : CodeRanges := [
  (0x9, 0xd), (0x20, 0x20), (0x85, 0x85), (0xa0, 0xa0), (0x1680, 0x1680), (0x2000, 0x200a),
  (0x2028, 0x2029), (0x202f, 0x202f), (0x205f, 0x205f), (0x3000, 0x3000)]

/-- The Unicode property White_Space. -/
def isBlank (c : Char) : Bool :=
  blankRanges.contains c

/-- Every character that is white space in ASCII is white space. -/
theorem isBlank_of_isWhitespace {c : Char} (h : c.isWhitespace = true) : isBlank c = true := by
  simp only [Char.isWhitespace, Bool.or_eq_true, decide_eq_true_eq] at h
  rcases h with ((rfl | rfl) | rfl) | rfl <;> decide

end DockerfileSyntax
