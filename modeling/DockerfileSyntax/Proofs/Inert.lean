import DockerfileSyntax.Proofs.Reading.Results

/-!
# Tokens with nothing to expand

Outside literals and identifiers there is nothing to expand: trivia and keywords stay as they are,
and the expansion of a list passes over them. A literal or an identifier is replaced as a whole, or
it stays and the expansion ends.
-/

namespace DockerfileSyntax

open Grammar

/-- The quote of an identifier or a literal; in nodes of these kinds references are expanded. -/
def NodeKind.wordQuote? : NodeKind → Option (Option Quote)
  | .identifier quote | .literal quote => some quote
  | _ => none

/-- There is nothing to expand in the token. -/
def Token.Inert (env : Environment) (t : Token) : Prop := t.resolve env = ⟨t, none⟩

variable {env : Environment} {e : Char} {ts : List Token}

theorem Token.resolve_word {kind : NodeKind} {quote : Option Quote}
    (h : kind.wordQuote? = some quote) (env : Environment) (children : List Token) :
    resolve env (.node kind children) =
      match expandWithin env quote children with
      | .ok parts => ⟨.node kind parts, none⟩
      | .error unset => ⟨.node kind children, some unset⟩ := by
  cases kind with
  | identifier _ | literal _ =>
    cases h
    rfl
  | _ => cases h

theorem Token.resolve_other {kind : NodeKind} (h : kind.wordQuote? = none) (env : Environment)
    (children : List Token) :
    resolve env (.node kind children) =
      ⟨.node kind (resolveAll env children).result, (resolveAll env children).error⟩ := by
  cases kind with
  | identifier _ | literal _ => cases h
  | _ => rfl

theorem Token.inert_leaf (env : Environment) (kind : LeafKind) (text : Text) :
    Inert env (.leaf kind text) := rfl

theorem resolveAll_append (h : ∀ t ∈ ts, t.Inert env) (behind : List Token) :
    Token.resolveAll env (ts ++ behind) =
      ⟨ts ++ (Token.resolveAll env behind).result, (Token.resolveAll env behind).error⟩ := by
  induction ts with
  | nil => rfl
  | cons t ts ih =>
    obtain ⟨first, others⟩ := List.forall_mem_cons.mp h
    rw [List.cons_append, Token.resolveAll, first, ih others]
    rfl

theorem resolveAll_of_inert (h : ∀ t ∈ ts, t.Inert env) :
    Token.resolveAll env ts = ⟨ts, none⟩ := by
  have whole := resolveAll_append h []
  rwa [List.append_nil, Token.resolveAll, List.append_nil] at whole

/-- A node that is neither a name nor a literal is inert if its parts are. -/
theorem Token.inert_node {kind : NodeKind} (h : kind.wordQuote? = none)
    (parts : ∀ t ∈ ts, t.Inert env) : Inert env (.node kind ts) := by
  rw [Inert, resolve_other h, resolveAll_of_inert parts]

theorem Continuation.IsBreak.inert {k : Continuation} (h : k.IsBreak e) :
    k.toToken.Inert env := by
  obtain ⟨gap, ending, -, -, rfl⟩ := h
  have leaves : ∀ t ∈ .symbol [e] :: (blankTokens gap ++ [.newLine ending]), t.Inert env := by
    cases gap <;> simp [blankTokens, Token.inert_leaf]
  exact Token.inert_node rfl leaves

theorem Trivia.IsPlain.inert {t : Trivia} (h : t.IsPlain e) : t.toToken.Inert env := by
  cases t with
  | continuation k => exact Continuation.IsBreak.inert h
  | _ => rfl

theorem PlainTrivia.inert {trivia : List Trivia} (h : PlainTrivia e trivia) :
    ∀ t ∈ trivia.map Trivia.toToken, t.Inert env := by
  intro t ht
  obtain ⟨t, mem, rfl⟩ := List.mem_map.mp ht
  exact (h t mem).inert

theorem Keyword.inert {k : Keyword} (h : ∀ t ∈ k.children, WordPart e t) :
    k.toToken.Inert env := by
  refine Token.inert_node rfl fun t ht => ?_
  cases h t ht with
  | string text => rfl
  | break_ isBreak => exact isBreak.inert

theorem Identifier.resolve_toToken (i : Identifier) (env : Environment) :
    i.toToken.resolve env =
      match i.resolve env with
      | .ok i' => ⟨i'.toToken, none⟩
      | .error unset => ⟨i.toToken, some unset⟩ := by
  rw [Identifier.toToken, Token.resolve_word rfl, Identifier.resolve]
  cases Token.expandWithin env i.quote i.children <;> rfl

theorem Literal.resolve_toToken (l : Literal) (env : Environment) :
    l.toToken.resolve env =
      match l.resolve env with
      | .ok l' => ⟨l'.toToken, none⟩
      | .error unset => ⟨l.toToken, some unset⟩ := by
  rw [Literal.toToken, Token.resolve_word rfl, Literal.resolve]
  cases Token.expandWithin env l.quote l.children <;> rfl

end DockerfileSyntax
