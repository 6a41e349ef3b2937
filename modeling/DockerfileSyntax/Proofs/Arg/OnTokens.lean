import DockerfileSyntax.Proofs.Arg.Obtained
import DockerfileSyntax.Proofs.Arg.Shape
import DockerfileSyntax.Proofs.Inert
import DockerfileSyntax.Proofs.Mirroring

/-!
# Editing the tokens of a declaration

An edit can do its work on the list of tokens alone: `Arg.Change.onTokens` searches the list for the
part to change, by its kind and its place, and it is an error if the part is not there. On the
tokens of a declaration it does what the edit of the declaration does, and so no part is missing.

1. `Arg.Formed.mirrors`, `Arg.Formed.tokens_afterAll`: an edit of the tokens does what the edit of
   the declaration does, and so does a run of edits.
2. `Arg.tokens_of_obtained`: in every state, the tokens are those of a declaration, and no edit of
   them finds a fault in their shape.
-/

namespace DockerfileSyntax

open Grammar DockerfileSyntax.Parser

/-! ## Edits of tokens -/

/-- The first token that `select` takes, with what stands before it and behind it. -/
def splitFirst {σ : Type} (select : Token → Option σ) :
    List Token → Option (List Token × σ × List Token)
  | [] => none
  | t :: ts =>
    match select t with
    | some part => some ([], part, ts)
    | none => (splitFirst select ts).map fun (before, part, behind) => (t :: before, part, behind)

/-- Edits the first token that `select` takes, in its place. It is a fault if there is none. -/
def editFirst {σ : Type} (select : Token → Option σ) (store : σ → Token) (fault : ShapeFault)
    (edit : Edit σ Unit) : Edit (List Token) Unit := do
  let ts ← get
  match splitFirst select ts with
  | none => throw (.shape fault)
  | some (before, part, behind) =>
    Edit.within part (fun part => before ++ store part :: behind) edit

namespace Arg.OnTokens

/-- Renames the instruction: edits the first keyword. -/
def setInstructionName (name : Text) : Edit (List Token) Unit := do
  requireNonEmpty .instructionName name
  editFirst Token.keyword? Keyword.toToken .noKeyword (Keyword.setText name.toUpperCase)

/-- Renames the argument: edits the first identifier. -/
def setArgName (escape : Char) (name : Text) : Edit (List Token) Unit := do
  requireNonEmpty .argName name
  let found ← readAs (fun failure => .invalid .argName (.malformed failure))
    (Grammar.argName escape) name
  if found.quote.isSome then throw (.invalid .argName (.quotedName name))
  else
    editFirst Token.identifier? Identifier.toToken .noName
      (modify fun i => { i with children := found.children })

/-- Sets the value: the first literal. It is removed together with the equals sign before it, edited
in its place, or added behind the first identifier. -/
def setArgValue (escape : Char) (value : Option Text) : Edit (List Token) Unit := do
  let ts ← get
  match ts.findIdx? Token.isLiteral, value with
  | some i, none =>
    if 0 < i ∧ ts[i - 1]? = some (.punctuation ['=']) then
      set (ts.take (i - 1) ++ ts.drop (i + 1))
    else throw (.shape .noEquals)
  | some i, some text =>
    match ts[i]?.bind Token.literal? with
    | some l =>
      Edit.within l (fun l => ts.set i l.toToken)
        (Literal.setContent .argValue escape [] true text)
    | none => return ()
  | none, some text =>
    match ts.findIdx? Token.isIdentifier with
    | none => throw (.shape .noName)
    | some i =>
      let l ← Edit.edited (Literal.setContent .argValue escape [] true text) .empty
      set (ts.take (i + 1) ++ [.punctuation ['='], l.toToken] ++ ts.drop (i + 1))
  | none, none => return ()

/-- Expands the references. If one of them fails, the tokens stay as they are. -/
def resolve (env : Environment) : Edit (List Token) Unit := do
  let ts ← get
  let resolved ← (Token.resolveAll env ts).toExcept
  set resolved

end Arg.OnTokens

/-- What the edit does to the tokens of a declaration. -/
def Arg.Change.onTokens (escape : Char) : Change → Edit (List Token) Unit
  | .name text => OnTokens.setArgName escape text
  | .value text => OnTokens.setArgValue escape text
  | .instructionName text => OnTokens.setInstructionName text
  | .resolve env => OnTokens.resolve env

/-- What stands before a token is passed over if it is not of the kind. -/
theorem splitFirst_append {σ : Type} {select : Token → Option σ} {t : Token} {part : σ}
    (found : select t = some part) (before behind : List Token)
    (none : ∀ s ∈ before, select s = none) :
    splitFirst select (before ++ t :: behind) = some (before, part, behind) := by
  induction before with
  | nil => simp [splitFirst, found]
  | cons s before ih =>
    obtain ⟨first, others⟩ := List.forall_mem_cons.mp none
    simp [splitFirst, first, ih others]

/-! ## Edits of parts -/

/-- An edit of the first token of a kind mirrors the edit of the token. -/
theorem mirrors_editFirst {σ : Type} {select : Token → Option σ} {store : σ → Token} {part : σ}
    (found : select (store part) = some part) (fault : ShapeFault) (edit : Edit σ Unit)
    (before behind : List Token) (none : ∀ t ∈ before, select t = none) :
    Edit.Mirrors (fun part => before ++ store part :: behind) part
      (editFirst select store fault edit) edit := by
  rw [Edit.Mirrors, editFirst, Edit.apply, Edit.get_bind, splitFirst_append found _ _ none]
  exact Edit.apply_within part (fun part => before ++ store part :: behind) edit _

namespace Arg

theorem mirrors_setInstructionName (name : Text) (a : Arg) :
    Edit.Mirrors tokens a (OnTokens.setInstructionName name) (setInstructionName name) := by
  refine .read <| .within ?_ rfl
  refine .check (fun _ => ?_) (requireNonEmpty .instructionName name)
  refine .read <| .within ?_ rfl
  simp only [tokens_eq]
  exact mirrors_editFirst (Keyword.keyword?_toToken _) .noKeyword _ _ _ (by simp)

theorem mirrors_setArgName (name : Text) (a : Arg) :
    Edit.Mirrors tokens a (OnTokens.setArgName a.escape name) (setArgName name) := by
  refine .check (fun _ => .read <| .check (fun found => ?_) _) _
  split
  · exact Edit.mirrors_throw tokens a _
  · rw [Edit.Mirrors, tokens_eq_opening, tokens_eq_opening]
    exact mirrors_editFirst (Identifier.identifier?_toToken a.name) .noName
      (modify fun i => { i with children := found.children }) a.opening _
      fun t ht => (not_of_mem_opening ht).1

theorem mirrors_setArgValue (value : Option Text) (a : Arg) :
    Edit.Mirrors tokens a (OnTokens.setArgValue a.escape value) (setArgValue value) := by
  refine .readImage ?_
  rw [findIdx?_isLiteral, findIdx?_isIdentifier]
  cases hv : a.value with
  | none =>
    cases value with
    | none =>
      obtain ⟨heading, name, old, trail, escape⟩ := a
      obtain rfl : old = none := hv
      rfl
    | some text =>
      refine .read ?_
      rw [hv]
      have behindName : a.opening.length + 1 = a.front.length := by simp [front]
      dsimp only [Option.map_none]
      rw [behindName]
      exact .check (fun l => Edit.mirrors_set (tokens_splice hv l)) _
  | some l =>
    cases value with
    | none =>
      have equals : 0 < a.front.length + 1 ∧
          a.tokens[a.front.length + 1 - 1]? = some (.punctuation ['=']) := by
        simp [tokens_of_value hv]
      dsimp only [Option.map_some]
      rw [if_pos equals]
      exact Edit.mirrors_set (tokens_drain hv)
    | some text =>
      have stored : a.tokens[a.front.length + 1]? = some l.toToken := by
        simp [tokens_of_value hv]
      refine .read ?_
      dsimp only [Option.map_some]
      rw [stored, hv]
      exact Edit.mirrors_within _ (tokens_set hv)

end Arg

/-! ## Expanding the tokens -/

namespace Arg

variable {e : Char} {a : Arg} {env : Environment}

/-- Up to the name there is nothing to expand. -/
theorem Formed.inert_front (h : a.Formed e) : ∀ t ∈ a.front, t.Inert env := by
  have name : a.name.toToken.Inert env := by
    rw [Token.Inert, Identifier.resolve_toToken, h.name.resolve_eq env]
  simp only [front, opening, List.forall_mem_append, List.forall_mem_cons]
  exact ⟨⟨h.heading.lead.inert, Keyword.inert h.heading.keyword, h.heading.gap.inert⟩, name,
    by simp⟩

/-- Expanding the tokens expands the value, if there is one, and nothing else. -/
theorem Formed.resolveAll_tokens (h : a.Formed e) (env : Environment) :
    Token.resolveAll env a.tokens =
      match a.value with
      | none => ⟨a.tokens, none⟩
      | some l =>
        match l.resolve env with
        | .ok l' => ⟨tokens { a with value := some l' }, none⟩
        | .error unset => ⟨a.tokens, some unset⟩ := by
  have trail : Token.resolveAll env (a.trail.map Trivia.toToken) =
      ⟨a.trail.map Trivia.toToken, none⟩ := resolveAll_of_inert h.trail.inert
  cases hv : a.value with
  | none =>
    rw [tokens_of_noValue hv, resolveAll_append h.inert_front, trail]
  | some l =>
    rw [tokens_of_value hv, resolveAll_append h.inert_front, Token.resolveAll, Token.resolveAll,
      Token.resolve, Literal.resolve_toToken]
    dsimp only
    cases l.resolve env with
    | error unset => rfl
    | ok l' =>
      dsimp only
      rw [trail, tokens_withValue]

theorem Formed.mirrors_resolve (h : a.Formed e) (env : Environment) :
    Edit.Mirrors tokens a (OnTokens.resolve env) (resolve env) := by
  refine .readImage ?_
  rw [Edit.Mirrors, apply_resolve (h.name.resolve_eq env), h.resolveAll_tokens env]
  cases a.value with
  | none => rfl
  | some l =>
    dsimp only
    cases l.resolve env <;> rfl

/-! ## All edits -/

/-- Every edit of the tokens does what the edit of the declaration does. -/
theorem Formed.mirrors (h : a.Formed e) (change : Change) :
    Edit.Mirrors tokens a (change.onTokens e) change.run := by
  cases change with
  | name text =>
    have mirrored := mirrors_setArgName text a
    rwa [h.escape] at mirrored
  | value text =>
    have mirrored := mirrors_setArgValue text a
    rwa [h.escape] at mirrored
  | instructionName text => exact mirrors_setInstructionName text a
  | resolve env => exact h.mirrors_resolve env

/-- Any number of edits of the tokens do what these edits of the declaration do. -/
theorem Formed.tokens_afterAll (h : a.Formed e) (changes : List Change) :
    Edit.afterAll (changes.map (Change.onTokens e)) a.tokens =
      (Edit.afterAll (changes.map Change.run) a).tokens :=
  Edit.mirrors_afterAll (fun _ h => h.mirrors) (fun _ h => h.after) h changes

/-- A value that was accepted is there, and one that was removed is not. -/
theorem isSome_value_of_set {value : Option Text}
    (accepted : (Edit.apply (setArgValue value) a).error = none) :
    (Edit.apply (setArgValue value) a).result.value.isSome = value.isSome := by
  cases value with
  | none => rfl
  | some text =>
    rw [apply_setArgValue] at accepted ⊢
    split at accepted
    · rfl
    · cases accepted

/-- In every state of a declaration, its tokens are those of a declaration, and its name is not
empty. So an edit may work on the tokens alone: it does what the edit of the declaration does, the
part that it searches for is there, and once it has set the value there is a literal, or none if it
has removed it. -/
theorem tokens_of_obtained (h : Obtained e a) :
    IsDeclaration a.tokens ∧ a.argName ≠ [] ∧
    (∀ change : Change,
      Edit.apply (change.onTokens e) a.tokens =
        ⟨(Edit.apply change.run a).result.tokens, (Edit.apply change.run a).error⟩ ∧
      ∀ fault, (Edit.apply (change.onTokens e) a.tokens).error ≠ some (.shape fault)) ∧
    ∀ value, (Edit.apply (OnTokens.setArgValue e value) a.tokens).error = none →
      ((Edit.apply (OnTokens.setArgValue e value) a.tokens).result.findIdx?
        Token.isLiteral).isSome = value.isSome := by
  have formed := h.formed
  refine ⟨isDeclaration_tokens a, formed.name.value_ne_nil, fun change =>
    ⟨formed.mirrors change, fun fault => ?_⟩, fun value accepted => ?_⟩
  · rw [formed.mirrors change]
    intro failed
    cases formed.editError failed
  · have mirrored : Edit.Mirrors tokens a (OnTokens.setArgValue e value) (setArgValue value) :=
      formed.mirrors (.value value)
    rw [mirrored] at accepted ⊢
    rw [findIdx?_isLiteral, Option.isSome_map]
    exact isSome_value_of_set accepted

/-- `ARG ^` and, on the next line, `x=$A` become `ARG ^` and `x=1` where `^` is the escape character
and `A` is `1`. These tokens are those of a declaration, and without the value they hold no
literal. -/
theorem tokens_of_obtained_sample :
    ∃ start a, parse '^' "ARG ^\nx=$A".toList = .ok start ∧
      Edit.apply (resolve fun name => if name = ['A'] then some ['1'] else none) start =
        ⟨a, none⟩ ∧
      Obtained '^' a ∧ a.render = "ARG ^\nx=1".toList ∧ IsDeclaration a.tokens ∧
      a.argName ≠ [] ∧
      ((Edit.apply (OnTokens.setArgValue '^' none) a.tokens).result.findIdx?
        Token.isLiteral).isSome = false := by
  let env : Environment := fun name => if name = ['A'] then some ['1'] else none
  obtain ⟨start, h⟩ := exists_of_isOk (x := parse '^' "ARG ^\nx=$A".toList) (by decide +kernel)
  obtain ⟨a, resolved, text⟩ := Edit.exists_accepted (g := render) (b := "ARG ^\nx=1".toList)
    (resolve env) (fun a => a) h (by decide +kernel)
  have obtained : Obtained '^' _ := .edited (.resolve env) (.read h)
  rw [Change.run, resolved] at obtained
  obtain ⟨declaration, name, onTokens, onValue⟩ := tokens_of_obtained obtained
  have accepted := congrArg Progress.error (onTokens (.value none)).1
  exact ⟨start, a, h, resolved, obtained, text, declaration, name, onValue none accepted⟩

end Arg

end DockerfileSyntax
