import DockerfileSyntax.Arg
import DockerfileSyntax.Proofs.Kinds

/-!
# The tokens of a declaration

Among the tokens of a declaration there is one keyword, behind it one identifier, and perhaps one
literal, which then stands behind the identifier and an equals sign: `Arg.isDeclaration_tokens`. The
rest is trivia, so that each part can be found among the tokens by its kind, and its place is known.
-/

namespace DockerfileSyntax

/-- The tokens of a declaration: one keyword, behind it one identifier, and perhaps one literal. A
literal is there if and only if an equals sign is, and then the identifier, the equals sign and the
literal follow each other. -/
structure IsDeclaration (ts : List Token) : Prop where
  keyword : ts.countP Token.isKeyword = 1
  identifier : ts.countP Token.isIdentifier = 1
  ordered : ∃ i j, ts.findIdx? Token.isKeyword = some i ∧ ts.findIdx? Token.isIdentifier = some j ∧
    i < j
  literal : ts.countP Token.isLiteral ≤ 1
  assigned : (∃ t ∈ ts, t.isLiteral = true) ↔ .punctuation ['='] ∈ ts
  adjacent : ∀ t ∈ ts, t.isLiteral = true → ∃ before name behind, Token.isIdentifier name = true ∧
    ts = before ++ name :: .punctuation ['='] :: t :: behind

namespace Arg

/-! ## Where the parts stand -/

/-- The tokens of a value, with the equals sign before it. -/
def assignedTokens : Option Literal → List Token
  | none => []
  | some value => [.punctuation ['='], value.toToken]

theorem tokens_eq (a : Arg) :
    a.tokens = a.heading.lead.map Trivia.toToken ++ a.heading.keyword.toToken ::
      (a.heading.gap.map Trivia.toToken ++ a.name.toToken ::
        (assignedTokens a.value ++ a.trail.map Trivia.toToken)) := by
  obtain ⟨heading, name, value, trail, escape⟩ := a
  cases value <;>
    simp [tokens, toInstruction, Instruction.tokens, Heading.tokens, bodyTokens, assignedTokens]

/-- What stands before the name: the keyword with trivia around it. -/
def opening (a : Arg) : List Token :=
  a.heading.lead.map Trivia.toToken ++ a.heading.keyword.toToken ::
    a.heading.gap.map Trivia.toToken

theorem tokens_eq_opening (a : Arg) :
    a.tokens = a.opening ++ a.name.toToken ::
      (assignedTokens a.value ++ a.trail.map Trivia.toToken) := by
  simp [tokens_eq, opening]

/-- Tokens of a kind are found among the parts only, if no trivia are of this kind. -/
theorem filter_tokens {p : Token → Bool} (noTrivia : ∀ t : Trivia, p t.toToken = false) (a : Arg) :
    a.tokens.filter p =
      (a.heading.keyword.toToken :: a.name.toToken :: assignedTokens a.value).filter p := by
  have skipped (ts : List Trivia) : (ts.map Trivia.toToken).filter p = [] := by
    rw [List.filter_map, List.map_eq_nil_iff, List.filter_eq_nil_iff]
    simp [noTrivia]
  simp [tokens_eq, skipped, List.filter_cons]

theorem filter_isKeyword (a : Arg) :
    a.tokens.filter Token.isKeyword = [a.heading.keyword.toToken] := by
  rw [filter_tokens (by simp [Token.isKeyword])]
  cases a.value <;> rfl

theorem filter_isIdentifier (a : Arg) :
    a.tokens.filter Token.isIdentifier = [a.name.toToken] := by
  rw [filter_tokens (by simp [Token.isIdentifier])]
  cases a.value <;> rfl

theorem filter_isLiteral (a : Arg) :
    a.tokens.filter Token.isLiteral = a.value.toList.map Literal.toToken := by
  rw [filter_tokens (by simp [Token.isLiteral])]
  cases a.value <;> rfl

theorem equals_mem_tokens {a : Arg} : .punctuation ['='] ∈ a.tokens ↔ a.value.isSome = true := by
  cases hv : a.value <;>
    simp [tokens_eq, hv, assignedTokens, Trivia.toToken_ne_punctuation, Keyword.toToken,
      Identifier.toToken]

theorem literal_mem_tokens {a : Arg} {t : Token} :
    t ∈ a.tokens ∧ t.isLiteral = true ↔ ∃ l, a.value = some l ∧ t = l.toToken := by
  rw [← List.mem_filter, filter_isLiteral]
  cases a.value <;> simp

theorem findIdx?_isKeyword (a : Arg) :
    a.tokens.findIdx? Token.isKeyword = some a.heading.lead.length := by
  rw [tokens_eq, findIdx?_append_cons rfl _ _ (by simp [Token.isKeyword]), List.length_map]

/-- Nothing before the name is an identifier or a literal. -/
theorem not_of_mem_opening {a : Arg} {t : Token} (h : t ∈ a.opening) :
    t.identifier? = none ∧ t.literal? = none := by
  simp only [opening, List.mem_append, List.mem_cons, List.mem_map] at h
  rcases h with ⟨t, -, rfl⟩ | rfl | ⟨t, -, rfl⟩ <;> simp

theorem findIdx?_isIdentifier (a : Arg) :
    a.tokens.findIdx? Token.isIdentifier = some a.opening.length := by
  rw [tokens_eq_opening]
  refine findIdx?_append_cons rfl _ _ fun t ht => ?_
  simp [Token.isIdentifier, not_of_mem_opening ht]

/-- The tokens up to the name. -/
def front (a : Arg) : List Token := a.opening ++ [a.name.toToken]

theorem tokens_of_value {a : Arg} {l : Literal} (h : a.value = some l) :
    a.tokens = a.front ++ .punctuation ['='] :: l.toToken :: a.trail.map Trivia.toToken := by
  simp [tokens_eq_opening, front, h, assignedTokens]

theorem tokens_of_noValue {a : Arg} (h : a.value = none) :
    a.tokens = a.front ++ a.trail.map Trivia.toToken := by
  simp [tokens_eq_opening, front, h, assignedTokens]

theorem tokens_withValue (a : Arg) (l : Literal) : tokens { a with value := some l } =
    a.front ++ .punctuation ['='] :: l.toToken :: a.trail.map Trivia.toToken :=
  tokens_of_value rfl

theorem tokens_withoutValue (a : Arg) :
    tokens { a with value := none } = a.front ++ a.trail.map Trivia.toToken :=
  tokens_of_noValue rfl

theorem findIdx?_isLiteral (a : Arg) :
    a.tokens.findIdx? Token.isLiteral = a.value.map fun _ => a.front.length + 1 := by
  cases hv : a.value with
  | none =>
    rw [Option.map_none, List.findIdx?_eq_none_iff]
    intro t ht
    rw [← Bool.not_eq_true]
    intro isLiteral
    obtain ⟨l, stored, -⟩ := literal_mem_tokens.mp ⟨ht, isLiteral⟩
    rw [hv] at stored
    cases stored
  | some l =>
    have found := findIdx?_append_cons (p := Token.isLiteral) (t := l.toToken) rfl
      (a.front ++ [.punctuation ['=']]) (a.trail.map Trivia.toToken) fun t ht => ?_
    · simpa [tokens_of_value hv] using found
    · rcases List.mem_append.mp ht with ht | ht
      · rcases List.mem_append.mp ht with ht | ht
        · simp [Token.isLiteral, not_of_mem_opening ht]
        · simp [List.mem_singleton.mp ht, Token.isLiteral]
      · rw [List.mem_singleton.mp ht]
        rfl

/-- What is put behind the name, and the equals sign before it, make up a value. -/
theorem tokens_splice {a : Arg} (h : a.value = none) (l : Literal) :
    a.tokens.take a.front.length ++ [.punctuation ['='], l.toToken] ++
      a.tokens.drop a.front.length = tokens { a with value := some l } := by
  rw [tokens_withValue, tokens_of_noValue h, List.take_left, List.drop_left, List.append_assoc]
  rfl

/-- Without the literal and the token before it, there is no value. -/
theorem tokens_drain {a : Arg} {l : Literal} (h : a.value = some l) :
    a.tokens.take a.front.length ++ a.tokens.drop (a.front.length + 2) =
      tokens { a with value := none } := by
  rw [tokens_withoutValue, tokens_of_value h, List.take_left, List.drop_append]
  simp

/-- What is put in the place of the literal is the new value. -/
theorem tokens_set {a : Arg} {l : Literal} (h : a.value = some l) (l' : Literal) :
    a.tokens.set (a.front.length + 1) l'.toToken = tokens { a with value := some l' } := by
  rw [tokens_withValue, tokens_of_value h]
  simp

/-! ## What is among the tokens -/

/-- The tokens of a declaration are those of a declaration. -/
theorem isDeclaration_tokens (a : Arg) : IsDeclaration a.tokens where
  keyword := by rw [List.countP_eq_length_filter, filter_isKeyword, List.length_singleton]
  identifier := by rw [List.countP_eq_length_filter, filter_isIdentifier, List.length_singleton]
  ordered := by
    refine ⟨_, _, findIdx?_isKeyword a, findIdx?_isIdentifier a, ?_⟩
    simp only [opening, List.length_append, List.length_map, List.length_cons]
    omega
  literal := by
    rw [List.countP_eq_length_filter, filter_isLiteral]
    cases a.value <;> simp
  assigned := by
    simp only [literal_mem_tokens, equals_mem_tokens, Option.isSome_iff_exists]
    exact ⟨fun ⟨_, l, hv, _⟩ => ⟨l, hv⟩, fun ⟨l, hv⟩ => ⟨_, l, hv, rfl⟩⟩
  adjacent := by
    intro t ht isLiteral
    obtain ⟨l, hv, rfl⟩ := literal_mem_tokens.mp ⟨ht, isLiteral⟩
    refine ⟨a.opening, a.name.toToken, a.trail.map Trivia.toToken, rfl, ?_⟩
    rw [tokens_eq_opening, hv, assignedTokens]
    rfl

end Arg

end DockerfileSyntax
