import DockerfileSyntax.Trivia

/-!
# Kinds of tokens

Among the tokens of an instruction or of a value, a part is found by its kind and its place. Trivia
are of no kind that is searched for.
-/

namespace DockerfileSyntax

namespace Token

/-- The keyword that the token is, if it is one. -/
def keyword? : Token → Option Keyword
  | .keyword children => some ⟨children⟩
  | _ => none

/-- The identifier that the token is, if it is one. -/
def identifier? : Token → Option Identifier
  | .identifier quote children => some ⟨quote, children⟩
  | _ => none

/-- The literal that the token is, if it is one. -/
def literal? : Token → Option Literal
  | .literal quote children => some ⟨quote, children⟩
  | _ => none

def isKeyword (t : Token) : Bool := t.keyword?.isSome

def isIdentifier (t : Token) : Bool := t.identifier?.isSome

def isLiteral (t : Token) : Bool := t.literal?.isSome

end Token

@[simp] theorem Keyword.keyword?_toToken (k : Keyword) : k.toToken.keyword? = some k := rfl
@[simp] theorem Keyword.identifier?_toToken (k : Keyword) : k.toToken.identifier? = none := rfl
@[simp] theorem Keyword.literal?_toToken (k : Keyword) : k.toToken.literal? = none := rfl

@[simp] theorem Identifier.keyword?_toToken (i : Identifier) : i.toToken.keyword? = none := rfl
@[simp] theorem Identifier.identifier?_toToken (i : Identifier) :
    i.toToken.identifier? = some i := rfl
@[simp] theorem Identifier.literal?_toToken (i : Identifier) : i.toToken.literal? = none := rfl

@[simp] theorem Literal.keyword?_toToken (l : Literal) : l.toToken.keyword? = none := rfl
@[simp] theorem Literal.identifier?_toToken (l : Literal) : l.toToken.identifier? = none := rfl
@[simp] theorem Literal.literal?_toToken (l : Literal) : l.toToken.literal? = some l := rfl

@[simp] theorem Trivia.keyword?_toToken (t : Trivia) : t.toToken.keyword? = none := by
  cases t <;> rfl

@[simp] theorem Trivia.identifier?_toToken (t : Trivia) : t.toToken.identifier? = none := by
  cases t <;> rfl

@[simp] theorem Trivia.literal?_toToken (t : Trivia) : t.toToken.literal? = none := by
  cases t <;> rfl

theorem Trivia.toToken_ne_punctuation (t : Trivia) (text : Text) :
    t.toToken ≠ .punctuation text := by
  cases t <;> exact nofun

theorem findIdx?_append_cons {p : Token → Bool} {t : Token} (found : p t = true)
    (before behind : List Token) (none : ∀ s ∈ before, p s = false) :
    (before ++ t :: behind).findIdx? p = some before.length := by
  induction before with
  | nil => simp [List.findIdx?_cons, found]
  | cons s before ih =>
    obtain ⟨first, others⟩ := List.forall_mem_cons.mp none
    simp [List.findIdx?_cons, first, ih others]

end DockerfileSyntax
