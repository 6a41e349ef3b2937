import DockerfileSyntax.Proofs.NormalForm
import DockerfileSyntax.Proofs.Respelling.Grammar

/-!
# The other escape character

The spelling that swaps the two escape characters. It changes every leaf of a tree in the same way,
so that the source text of the tree is swapped with it (`render_mapText`), and trees in normal
form are expanded alike if the values of the variables are swapped (`Literal.resolve_alike`): the
names of variables hold no escape characters, and neither do modifiers.
-/

namespace DockerfileSyntax

open Grammar DockerfileSyntax.Parser

/-! ## Swapping -/

/-- The other escape character for each of the two, and every other character as it is. -/
def swapEscape (c : Char) : Char :=
  if c = '\\' then '`' else if c = '`' then '\\' else c

theorem swapEscape_swapEscape (c : Char) : swapEscape (swapEscape c) = c := by
  by_cases hc : c = '\\'
  · rw [hc]
    decide
  by_cases hc' : c = '`'
  · rw [hc']
    decide
  · rw [swapEscape, swapEscape, if_neg hc, if_neg hc', if_neg hc, if_neg hc']

/-- The text with the two escape characters swapped. -/
def Text.swapEscapes (t : Text) : Text := t.map swapEscape

/-- The variables, their values with the two escape characters swapped. -/
def Environment.swapEscapes (env : Environment) : Environment :=
  fun name => (env name).map Text.swapEscapes

namespace Token

mutual

/-- The tree with this done to the text of every leaf. -/
def mapText (f : Text → Text) : Token → Token
  | .leaf kind text => .leaf kind (f text)
  | .node kind children => .node kind (mapTextAll f children)

/-- The trees with this done to the text of every leaf. -/
def mapTextAll (f : Text → Text) : List Token → List Token
  | [] => []
  | t :: ts => mapText f t :: mapTextAll f ts

end

end Token

/-- The spelling with the two escape characters swapped. -/
def swapped : Respelling where
  char := swapEscape
  lineEnd := ['\n']
  newLine := Text.swapEscapes
  returns := true
  char_eq {c} h := by
    rw [not_or] at h
    rw [swapEscape, if_neg h.1, if_neg h.2]
  isEscape_char {c} h := by
    rcases h with rfl | rfl <;> decide
  char_injective {c d} h := by
    have back := congrArg swapEscape h
    rwa [swapEscape_swapEscape, swapEscape_swapEscape] at back
  lineEnd_mem := by decide
  newLine_lineFeed := rfl
  lineEnd_eq _ := rfl
  newLine_both _ := by decide

theorem swapped_admits (t : Text) : swapped.Admits t := fun no => by cases no

theorem swapped_text (t : Text) : swapped.text t = t.swapEscapes := by
  have same : (fun c => if c = '\n' then ['\n'] else [swapEscape c]) = fun c => [swapEscape c] := by
    funext c
    split
    · next h => rw [h]; rfl
    · rfl
  show t.flatMap (fun c => if c = '\n' then ['\n'] else [swapEscape c]) = t.map swapEscape
  rw [same, List.map_eq_flatMap]

mutual

theorem swapped_token (ends : Bool) :
    (t : Token) → swapped.token ends t = t.mapText Text.swapEscapes
  | .leaf kind text => by
    rw [Respelling.token, Token.mapText]
    congr 1
    split <;> rfl
  | .node kind children => by
    rw [Respelling.token, Token.mapText, swapped_tokens _ children]

theorem swapped_tokens (ends : Bool) :
    (ts : List Token) → swapped.tokens ends ts = Token.mapTextAll Text.swapEscapes ts
  | [] => rfl
  | t :: ts => by
    rw [Respelling.tokens, Token.mapTextAll, swapped_token ends t, swapped_tokens ends ts]

end

/-! ## Source text -/

theorem swapEscapes_append (s t : Text) :
    (s ++ t).swapEscapes = s.swapEscapes ++ t.swapEscapes := List.map_append

/-- What stands around the parts of a node holds no escape character. -/
theorem swapEscapes_marks (kind : NodeKind) :
    kind.opening.swapEscapes = kind.opening ∧ kind.closing.swapEscapes = kind.closing := by
  cases kind with
  | continuation | keyword => exact ⟨rfl, rfl⟩
  | identifier quote | literal quote => rcases quote with _ | _ | _ <;> decide
  | reference braced => cases braced <;> decide

mutual

theorem render_mapText : (t : Token) → (t.mapText Text.swapEscapes).render = t.render.swapEscapes
  | .leaf kind text => rfl
  | .node kind children => by
    obtain ⟨opening, closing⟩ := swapEscapes_marks kind
    rw [Token.mapText, Token.render, Token.render, renderAll_mapTextAll children,
      swapEscapes_append, swapEscapes_append, opening, closing]

theorem renderAll_mapTextAll : (ts : List Token) →
    Token.renderAll (Token.mapTextAll Text.swapEscapes ts) = (Token.renderAll ts).swapEscapes
  | [] => rfl
  | t :: ts => by
    rw [Token.mapTextAll, Token.renderAll, Token.renderAll, render_mapText t,
      renderAll_mapTextAll ts, swapEscapes_append]

end

theorem render_swapped_literal (l : Literal) :
    (swapped.literal l).render = l.render.swapEscapes := by
  have text := render_mapText l.toToken
  rwa [← swapped_token false, Respelling.token_literal] at text

/-! ## Expansion -/

/-- Two computations that both succeed, with values of which the second is made from the first, or
both fail. -/
inductive EndAlike {α β ε ε' : Type} (f : α → β) : Except ε α → Except ε' β → Prop
  | ok (a : α) : EndAlike f (.ok a) (.ok (f a))
  | error (x : ε) (y : ε') : EndAlike f (.error x) (.error y)

namespace EndAlike

variable {α β γ δ ε ε' : Type} {f : α → β} {x : Except ε α} {y : Except ε' β}

theorem map {g : α → γ} {g' : β → δ} {k : γ → δ} (h : EndAlike f x y)
    (same : ∀ a, g' (f a) = k (g a)) : EndAlike k (x.map g) (y.map g') := by
  cases h with
  | ok a =>
    show EndAlike k (.ok (g a)) (.ok (g' (f a)))
    rw [same]
    exact .ok _
  | error x y => exact .error x y

theorem mapError {ζ ζ' : Type} (h : EndAlike f x y) (g : ε → ζ) (g' : ε' → ζ') :
    EndAlike f (x.mapError g) (y.mapError g') := by
  cases h with
  | ok a => exact .ok a
  | error x y => exact .error (g x) (g' y)

theorem bind {k : α → Except ε γ} {k' : β → Except ε' δ} {g : γ → δ} (h : EndAlike f x y)
    (h' : ∀ a, EndAlike g (k a) (k' (f a))) : EndAlike g (x >>= k) (y >>= k') := by
  cases h with
  | ok a => exact h' a
  | error x y => exact .error x y

theorem exists_ok_iff (h : EndAlike f x y) : (∃ b, y = .ok b) ↔ ∃ a, x = .ok a := by
  cases h with
  | ok a => exact ⟨fun _ => ⟨a, rfl⟩, fun _ => ⟨f a, rfl⟩⟩
  | error x y => exact ⟨nofun, nofun⟩

/-- Two checks that pass or fail together. -/
theorem of_unit {x : Except ε Unit} {y : Except ε' Unit} (h : y = .ok () ↔ x = .ok ()) :
    EndAlike id x y := by
  cases x with
  | ok u =>
    rw [h.mpr rfl]
    exact .ok u
  | error x =>
    cases y with
    | ok u => cases h.mp rfl
    | error y => exact .error x y

end EndAlike

theorem swapEscapes_of_isVariableName {name : Text} (h : isVariableName name = true) :
    name.swapEscapes = name := by
  refine Respelling.map_char_eq (T := swapped) fun c hc isEscape => ?_
  have noName := isEscape.not_isVariableNameChar
  cases name with
  | nil => cases hc
  | cons d name =>
    rw [isVariableName, Bool.and_eq_true, List.all_eq_true] at h
    rcases List.mem_cons.mp hc with rfl | hc
    · have start : isVariableNameStart c = false := by rcases isEscape with rfl | rfl <;> decide
      rw [h.1] at start
      cases start
    · rw [h.2 c hc] at noName
      cases noName

section

variable {e : Char} {env : Environment}

/-- A reference in normal form has the same name and the same modifier in both spellings. -/
theorem swapped_referenceParts {braced : Bool} {children : List Token}
    (parts : ReferenceParts braced children) :
    Reference.name ⟨braced, swapped.tokens false children⟩ = Reference.name ⟨braced, children⟩ ∧
      Reference.modifier? ⟨braced, swapped.tokens false children⟩ =
        Reference.modifier? ⟨braced, children⟩ := by
  cases parts with
  | plain isName =>
    have same := swapEscapes_of_isVariableName isName
    simp only [Respelling.tokens, Respelling.token_string]
    rw [show List.map swapped.char _ = _ from same]
    exact ⟨rfl, rfl⟩
  | @modified name symbol word isName isModifier =>
    have same := swapEscapes_of_isVariableName isName
    obtain ⟨m, hm⟩ := Option.isSome_iff_exists.mp isModifier
    have written : m.symbol = symbol := by simpa using List.find?_some hm
    have symbol : symbol.map swapped.char = symbol := written ▸ map_char_symbol m
    simp only [Respelling.tokens, Respelling.token_string, Respelling.token_symbol, symbol]
    rw [show List.map swapped.char _ = _ from same]
    exact ⟨rfl, rfl⟩

theorem Modifier.isUnset_swapEscapes (m : Modifier) (value : Option Text) :
    m.isUnset (value.map Text.swapEscapes) = m.isUnset value := by
  cases value with
  | none => rfl
  | some text => cases text <;> rfl

/-- A reference in normal form stands for swapped text if its word does. -/
theorem expansion_alike {braced : Bool} {children : List Token}
    (parts : ReferenceParts braced children) {word word' : Except UnsetVariable Text}
    (h : EndAlike Text.swapEscapes word word') :
    EndAlike Text.swapEscapes (Reference.expansion ⟨braced, children⟩ env word)
      (Reference.expansion ⟨braced, swapped.tokens false children⟩ env.swapEscapes word') := by
  obtain ⟨name, modifier⟩ := swapped_referenceParts parts
  unfold Reference.expansion
  rw [name, modifier]
  generalize Reference.name ⟨braced, children⟩ = name
  have known : EndAlike Text.swapEscapes (.ok ((env name).getD []) : Except UnsetVariable Text)
      (.ok ((env.swapEscapes name).getD []) : Except UnsetVariable Text) := by
    rw [Environment.swapEscapes]
    cases env name <;> exact .ok _
  cases Reference.modifier? ⟨braced, children⟩ with
  | none => exact known
  | some m =>
    dsimp only
    rw [show m.isUnset (env.swapEscapes name) = m.isUnset (env name) from
      m.isUnset_swapEscapes (env name)]
    cases m.use <;> cases m.isUnset (env name)
    case fallback.true => exact h
    case alternate.true => exact .ok []
    case alternate.false => exact h
    case requirement.true => cases h <;> exact .error _ _
    all_goals exact known

theorem textInWord_swapped (t : Token) :
    textInWord (swapped.token false t) = (textInWord t).swapEscapes := by
  have whole : Token.renderAll [swapped.token false t] = (Token.renderAll [t]).swapEscapes := by
    rw [swapped_token]
    exact renderAll_mapTextAll [t]
  cases t with
  | leaf kind text => exact whole
  | node kind children =>
    cases kind with
    | continuation => rfl
    | _ => exact whole

theorem wordText_swapped (parts : List Token) :
    Token.wordText (swapped.tokens false parts) = (Token.wordText parts).swapEscapes := by
  rw [wordText_eq, wordText_eq]
  induction parts with
  | nil => rfl
  | cons t parts ih =>
    rw [Respelling.tokens, List.flatMap_cons, List.flatMap_cons, ih, textInWord_swapped,
      swapEscapes_append]

open Token

mutual

theorem expandPart_alike (env : Environment) : (t : Token) → t.InNormalForm e →
    EndAlike (swapped.token false) (expandPart env t)
      (expandPart env.swapEscapes (swapped.token false t))
  | .leaf kind text, _ => by
    rw [expandPart, Respelling.token, expandPart]
    exact EndAlike.ok (f := swapped.token false) (.leaf kind text)
  | .node kind children, h => by
    obtain ⟨normal, below⟩ := inNormalForm_node.mp h
    cases kind with
    | reference braced =>
      rw [expandPart, Respelling.token, expandPart]
      exact (expansion_alike normal (expandWord_alike env children below)).map fun text => rfl
    | _ =>
      simp only [expandPart, Respelling.token]
      exact EndAlike.ok (f := swapped.token false) (.node _ children)

theorem expandParts_alike (env : Environment) : (ts : List Token) → (∀ t ∈ ts, t.InNormalForm e) →
    EndAlike (swapped.tokens false) (expandParts env ts)
      (expandParts env.swapEscapes (swapped.tokens false ts))
  | [], _ => .ok []
  | t :: ts, h => by
    obtain ⟨first, others⟩ := List.forall_mem_cons.mp h
    have part := expandPart_alike env t first
    have parts := expandParts_alike env ts others
    rw [expandParts, Respelling.tokens, expandParts]
    generalize expandPart env t = x, expandPart env.swapEscapes (swapped.token false t) = x' at part
    cases part with
    | error x y => exact .error x y
    | ok a =>
      generalize expandParts env ts = y, expandParts env.swapEscapes (swapped.tokens false ts) = y'
        at parts
      cases parts with
      | error x y => exact .error x y
      | ok as => exact .ok (a :: as)

theorem expandWord_alike (env : Environment) : (ts : List Token) → (∀ t ∈ ts, t.InNormalForm e) →
    EndAlike Text.swapEscapes (expandWord env ts)
      (expandWord env.swapEscapes (swapped.tokens false ts))
  | [], _ => .ok []
  | .leaf kind text :: ts, h => by
    rw [expandWord, Respelling.tokens, Respelling.token, expandWord]
    exact expandWord_alike env ts (List.forall_mem_cons.mp h).2
  | .node kind children :: ts, h => by
    obtain ⟨first, others⟩ := List.forall_mem_cons.mp h
    cases kind with
    | literal quote =>
      rw [expandWord, Respelling.tokens, Respelling.token, expandWord]
      exact (expandParts_alike env children (inNormalForm_node.mp first).2).map wordText_swapped
    | _ =>
      simp only [expandWord, Respelling.tokens, Respelling.token]
      exact expandWord_alike env ts others

end

/-- A literal in normal form is expanded alike in both spellings. -/
theorem Literal.resolve_alike {l : Literal} (h : l.toToken.InNormalForm e) :
    EndAlike swapped.literal (l.resolve env) ((swapped.literal l).resolve env.swapEscapes) := by
  have parts := expandParts_alike env l.children (inNormalForm_node.mp h).2
  have within : EndAlike (swapped.tokens false) (expandWithin env l.quote l.children)
      (expandWithin env.swapEscapes l.quote (swapped.tokens false l.children)) := by
    unfold expandWithin
    split
    · exact .ok _
    · exact parts.map fun ts => (swapped.tokens_mergeStrings ts).symm
  exact within.map fun ts => rfl

end

end DockerfileSyntax
