import DockerfileSyntax.KeyValue
import DockerfileSyntax.Owner
import DockerfileSyntax.Arg
import DockerfileSyntax.Proofs.Respelling.Basic

/-!
# Trees in another spelling

A respelling changes the texts of the leaves of a tree and nothing else. Line ends are among the
leaves at the top level and within line continuations only, so the text of a line end is respelled
there, and all other texts are respelled character by character. Declarations, owners and pairs are
respelled part by part.
-/

namespace DockerfileSyntax

namespace Respelling

variable (T : Respelling)

/-! ## Tokens -/

mutual

/-- The tree in the other spelling; `ends` if line ends may stand where it stands. -/
def token (ends : Bool) : Token → Token
  | .leaf kind text =>
    .leaf kind (if ends = true ∧ kind = .newLine then T.newLine text else text.map T.char)
  | .node kind children => .node kind (tokens (kind = .continuation) children)

/-- The trees in the other spelling. -/
def tokens (ends : Bool) : List Token → List Token
  | [] => []
  | t :: ts => token ends t :: tokens ends ts

end

theorem tokens_eq_map (ends : Bool) (ts : List Token) :
    T.tokens ends ts = ts.map (T.token ends) := by
  induction ts with
  | nil => rfl
  | cons t ts ih => rw [tokens, List.map_cons, ih]

@[simp] theorem tokens_append (ends : Bool) (s t : List Token) :
    T.tokens ends (s ++ t) = T.tokens ends s ++ T.tokens ends t := by
  simp only [tokens_eq_map, List.map_append]

theorem tokens_flatten (ends : Bool) (tss : List (List Token)) :
    T.tokens ends tss.flatten = (tss.map (T.tokens ends)).flatten := by
  induction tss with
  | nil => rfl
  | cons ts tss ih => rw [List.flatten_cons, tokens_append, ih, List.map_cons, List.flatten_cons]

@[simp] theorem token_string (ends : Bool) (text : Text) :
    T.token ends (.string text) = .string (text.map T.char) := by
  simp [token]

@[simp] theorem token_whitespace (ends : Bool) (text : Text) :
    T.token ends (.whitespace text) = .whitespace (text.map T.char) := by
  simp [token]

@[simp] theorem token_comment (ends : Bool) (text : Text) :
    T.token ends (.comment text) = .comment (text.map T.char) := by
  simp [token]

@[simp] theorem token_symbol (ends : Bool) (text : Text) :
    T.token ends (.symbol text) = .symbol (text.map T.char) := by
  simp [token]

@[simp] theorem token_punctuation (ends : Bool) (text : Text) :
    T.token ends (.punctuation text) = .punctuation (text.map T.char) := by
  simp [token]

@[simp] theorem token_newLine (text : Text) :
    T.token true (.newLine text) = .newLine (T.newLine text) := by
  simp [token]

theorem tokens_blankTokens (ends : Bool) (gap : Text) :
    T.tokens ends (blankTokens gap) = blankTokens (gap.map T.char) := by
  cases gap with
  | nil => rfl
  | cons c gap => simp [blankTokens, tokens]

theorem tokens_mergeStrings (ts : List Token) :
    T.tokens false (mergeStrings ts) = mergeStrings (T.tokens false ts) := by
  -- joining looks at the kinds of the tokens and at which strings are empty, and both stay
  induction ts with
  | nil => rfl
  | cons t ts ih =>
    cases t with
    | node kind children =>
      rw [tokens, token]
      show T.tokens false (.node kind children :: mergeStrings ts) = _
      rw [tokens, token, ih]
      rfl
    | leaf kind text =>
      cases kind with
      | string =>
        rw [tokens, token_string, mergeStrings, mergeStrings, ← ih]
        cases hm : mergeStrings ts with
        | nil =>
          cases text <;> simp [tokens]
        | cons u us =>
          cases u with
          | node kind children =>
            rw [tokens, token]
            cases text <;> simp [tokens, token]
          | leaf kind more =>
            cases kind with
            | string => simp [tokens]
            | _ => cases text <;> simp [tokens, token]
      | _ =>
        simp only [tokens, token, reduceCtorEq, and_false, if_false, Bool.false_eq_true, false_and]
        simp only [mergeStrings, tokens, token, reduceCtorEq, and_false, if_false,
          Bool.false_eq_true, false_and, ih]

/-! ## Nodes -/

def continuation (k : Continuation) : Continuation := ⟨T.tokens true k.children⟩

def keyword (k : Keyword) : Keyword := ⟨T.tokens false k.children⟩

def identifier (i : Identifier) : Identifier := ⟨i.quote, T.tokens false i.children⟩

def literal (l : Literal) : Literal := ⟨l.quote, T.tokens false l.children⟩

def reference (r : Reference) : Reference := ⟨r.braced, T.tokens false r.children⟩

def trivia : Trivia → Trivia
  | .whitespace text => .whitespace (text.map T.char)
  | .newLine text => .newLine (T.newLine text)
  | .comment text => .comment (text.map T.char)
  | .continuation k => .continuation (T.continuation k)

variable (ends : Bool)

theorem token_keyword (k : Keyword) : T.token ends k.toToken = (T.keyword k).toToken := rfl

theorem token_identifier (i : Identifier) : T.token ends i.toToken = (T.identifier i).toToken := rfl

theorem token_literal (l : Literal) : T.token ends l.toToken = (T.literal l).toToken := rfl

theorem token_reference (r : Reference) : T.token ends r.toToken = (T.reference r).toToken := rfl

theorem token_trivia (t : Trivia) : T.token true t.toToken = (T.trivia t).toToken := by
  cases t with
  | whitespace text => exact T.token_whitespace true text
  | newLine text => exact T.token_newLine text
  | comment text => exact T.token_comment true text
  | continuation k => rfl

theorem tokens_continuations (breaks : List Continuation) :
    T.tokens ends (breaks.map Continuation.toToken) =
      (breaks.map T.continuation).map Continuation.toToken := by
  rw [tokens_eq_map, List.map_map, List.map_map]
  rfl

theorem tokens_trivia (ts : List Trivia) :
    T.tokens true (ts.map Trivia.toToken) = (ts.map T.trivia).map Trivia.toToken := by
  rw [tokens_eq_map, List.map_map, List.map_map]
  exact List.map_congr_left fun t _ => T.token_trivia t

theorem trivia_ofBlanks (gap : Text) :
    (Trivia.ofBlanks gap).map T.trivia = Trivia.ofBlanks (gap.map T.char) := by
  cases gap <;> rfl

/-! ## Declarations, owners and pairs -/

def heading (h : Heading) : Heading :=
  ⟨h.lead.map T.trivia, T.keyword h.keyword, h.gap.map T.trivia⟩

def framed {α β : Type} (f : α → β) (framed : Framed α) : Framed β :=
  ⟨framed.before.map T.trivia, f framed.content, framed.after.map T.trivia⟩

def arg (a : Arg) : Arg where
  heading := T.heading a.heading
  name := T.identifier a.name
  value := a.value.map T.literal
  trail := a.trail.map T.trivia
  escape := T.char a.escape

def owner (o : Owner) : Owner where
  user := T.literal o.user
  breaks := o.breaks.map T.continuation
  group := o.group.map (Prod.map (List.map T.continuation) T.literal)
  escape := T.char o.escape

def separator : Separator → Separator
  | .equals => .equals
  | .colon => .colon
  | .blanks text => .blanks (text.map T.char)

/-- A key or a value in the other spelling. -/
def value : (kind : ValueKind) → kind.Carrier → kind.Carrier
  | .keyword, k => T.keyword k
  | .identifier, i => T.identifier i
  | .literal, l => T.literal l

def pair {K V : ValueKind} (p : KeyValue K V) : KeyValue K V where
  isFlag := p.isFlag
  keyToken := T.value K p.keyToken
  assigned := p.assigned.map (Prod.map T.separator (T.value V))
  escape := T.char p.escape

theorem tokens_heading (h : Heading) : T.tokens true h.tokens = (T.heading h).tokens := by
  rw [Heading.tokens, tokens_append, tokens, tokens_trivia, tokens_trivia]
  rfl

theorem tokens_arg (a : Arg) : T.tokens true a.tokens = (T.arg a).tokens := by
  have equals : ['='].map T.char = ['='] := by simp [T.char_eq (c := '=') (by decide)]
  obtain ⟨heading, name, value, trail, escape⟩ := a
  cases value with
  | none =>
    simp only [Arg.tokens, Arg.toInstruction, Arg.bodyTokens, Instruction.tokens, tokens_append,
      tokens_heading, tokens_trivia, tokens]
    rfl
  | some value =>
    simp only [Arg.tokens, Arg.toInstruction, Arg.bodyTokens, Instruction.tokens, tokens_append,
      tokens_heading, tokens_trivia, tokens, token_punctuation, equals]
    rfl

theorem tokens_owner (o : Owner) : T.tokens true o.tokens = (T.owner o).tokens := by
  have colon : [':'].map T.char = [':'] := by simp [T.char_eq (c := ':') (by decide)]
  obtain ⟨user, breaks, group, escape⟩ := o
  cases group with
  | none =>
    simp only [Owner.tokens, Owner.groupTokens, tokens_append, tokens, tokens_continuations]
    rfl
  | some group =>
    obtain ⟨after, group⟩ := group
    simp only [Owner.tokens, Owner.groupTokens, tokens_append, tokens, tokens_continuations,
      token_symbol, colon]
    rfl

theorem token_separator (s : Separator) : T.token true s.toToken = (T.separator s).toToken := by
  cases s with
  | equals => simp [Separator.toToken, separator, T.char_eq (c := '=') (by decide)]
  | colon => simp [Separator.toToken, separator, T.char_eq (c := ':') (by decide)]
  | blanks text => exact T.token_whitespace true text

theorem token_value (kind : ValueKind) (token : kind.Carrier) :
    T.token true (kind.toToken token) = kind.toToken (T.value kind token) := by
  cases kind <;> rfl

theorem tokens_pair {K V : ValueKind} (p : KeyValue K V) :
    T.tokens true p.tokens = (T.pair p).tokens := by
  have mark : flagMark.map T.char = flagMark := by
    simp [flagMark, T.char_eq (c := '-') (by decide)]
  obtain ⟨isFlag, keyToken, assigned, escape⟩ := p
  rcases assigned with _ | ⟨between, value⟩ <;> cases isFlag <;>
    simp [KeyValue.tokens, tokens, pair, token_value, token_separator, mark]

end Respelling

end DockerfileSyntax
