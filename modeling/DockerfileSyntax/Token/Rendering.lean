import DockerfileSyntax.Token

/-!
# Rendering

`render` gives back the exact source text of a tree; `value` gives what it means: the text without
quotes and without line continuations. Within a reference the dollar sign, the braces, the modifier
and the word belong to the value, for the value of a literal is text that is still to be expanded.
-/

namespace DockerfileSyntax

namespace NodeKind

/-- What stands before the parts of a node. -/
def opening : NodeKind → Text
  | continuation | keyword => []
  | identifier quote | literal quote => Quote.mark quote
  | reference braced => if braced then ['$', '\x7b'] else ['$']

/-- What stands behind the parts of a node. -/
def closing : NodeKind → Text
  | continuation | keyword => []
  | identifier quote | literal quote => Quote.mark quote
  | reference braced => if braced then ['\x7d'] else []

/-- The value of a node whose parts have the given value. -/
def valueOf (kind : NodeKind) (inner : Text) : Text :=
  match kind with
  | continuation => []
  | keyword | identifier _ | literal _ => inner
  | reference _ => kind.opening ++ inner ++ kind.closing

end NodeKind

namespace Token

mutual

/-- The exact source text of a tree. -/
def render : Token → Text
  | leaf _ text => text
  | node kind children => kind.opening ++ renderAll children ++ kind.closing

/-- The exact source text of a list of trees. -/
def renderAll : List Token → Text
  | [] => []
  | token :: tokens => render token ++ renderAll tokens

end

mutual

/-- The text of a tree without quotes and line continuations. -/
def value : Token → Text
  | leaf _ text => text
  | node kind children => kind.valueOf (valueAll children)

/-- The text of a list of trees without quotes and line continuations. -/
def valueAll : List Token → Text
  | [] => []
  | token :: tokens => value token ++ valueAll tokens

end

attribute [simp] render renderAll value valueAll NodeKind.opening NodeKind.closing NodeKind.valueOf

@[simp] theorem renderAll_append (s t : List Token) :
    renderAll (s ++ t) = renderAll s ++ renderAll t := by
  induction s with
  | nil => simp [renderAll]
  | cons token tokens ih => simp [renderAll, ih]

@[simp] theorem valueAll_append (s t : List Token) :
    valueAll (s ++ t) = valueAll s ++ valueAll t := by
  induction s with
  | nil => simp [valueAll]
  | cons token tokens ih => simp [valueAll, ih]

end Token

/-- Merging strings keeps the text. -/
@[simp] theorem renderAll_mergeStrings (tokens : List Token) :
    Token.renderAll (mergeStrings tokens) = Token.renderAll tokens := by
  induction tokens with
  | nil => rfl
  | cons token tokens ih =>
    unfold mergeStrings
    split
    · simp_all
    · split
      · simp_all [Token.renderAll, Token.render]
      · split <;> simp_all [Token.renderAll, Token.render]
    · simp_all [Token.renderAll]

/-- Merging strings keeps the value. -/
@[simp] theorem valueAll_mergeStrings (tokens : List Token) :
    Token.valueAll (mergeStrings tokens) = Token.valueAll tokens := by
  induction tokens with
  | nil => rfl
  | cons token tokens ih =>
    unfold mergeStrings
    split
    · simp_all
    · split
      · simp_all [Token.valueAll, Token.value]
      · split <;> simp_all [Token.valueAll, Token.value]
    · simp_all [Token.valueAll]

end DockerfileSyntax
