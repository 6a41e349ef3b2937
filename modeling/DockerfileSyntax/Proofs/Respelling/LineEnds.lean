import DockerfileSyntax.Proofs.Lossless
import DockerfileSyntax.Proofs.Respelling.Grammar

/-!
# Line ends

Whether lines end with `\n` or with `\r\n` makes no difference to what is read. Of a text without
`\r` and the same text with `\r\n` for every `\n`, either both are read or neither is; the trees
differ in the texts of their line ends alone, so that names, values and comments are the same, and
failures lie at the same line and column.

The proof is a run of the grammar on both texts at once (`Respelling.Carries`). A second run, in
which the other text is the text itself, shows that the first tree has `\n` for every line end.
-/

namespace DockerfileSyntax

/-- The text with `\r\n` for every `\n`. -/
def Text.withReturns (t : Text) : Text :=
  t.flatMap fun c => if c = '\n' then ['\r', '\n'] else [c]

namespace Token

mutual

/-- The tree with this text for each line end at the top level or within a line continuation;
`ends` if the tree itself stands there. -/
def withLineEnd (ending : Text) (ends : Bool) : Token → Token
  | .leaf kind text => .leaf kind (if ends = true ∧ kind = .newLine then ending else text)
  | .node kind children => .node kind (withLineEndAll ending (kind = .continuation) children)

/-- The trees with this text for each line end. -/
def withLineEndAll (ending : Text) (ends : Bool) : List Token → List Token
  | [] => []
  | t :: ts => withLineEnd ending ends t :: withLineEndAll ending ends ts

end

mutual

/-- Below the top level, line ends are without value. -/
theorem value_withLineEnd (ending : Text) :
    (t : Token) → (t.withLineEnd ending false).value = t.value
  | .leaf kind text => by simp [withLineEnd]
  | .node kind children => by
    cases kind with
    | continuation => simp [withLineEnd]
    | _ => simp [withLineEnd, valueAll_withLineEndAll ending children]

theorem valueAll_withLineEndAll (ending : Text) :
    (ts : List Token) → valueAll (withLineEndAll ending false ts) = valueAll ts
  | [] => rfl
  | t :: ts => by
    rw [withLineEndAll, valueAll, valueAll, value_withLineEnd ending t,
      valueAll_withLineEndAll ending ts]

end

end Token

/-- Two lists of trees that differ in their line ends alone: the first has `\n` for each of them,
the second `\r\n`. -/
structure SameButLineEnds (ts ts' : List Token) : Prop where
  first : Token.withLineEndAll ['\n'] true ts = ts
  second : ts' = Token.withLineEndAll ['\r', '\n'] true ts

namespace Respelling

/-- The spelling of texts without `\r` in which this stands for `\n`. -/
def ofLineEnd (ending : Text) (mem : ending ∈ lineEnds) : Respelling where
  char := id
  lineEnd := ending
  newLine _ := ending
  returns := false
  char_eq _ := rfl
  isEscape_char h := h
  char_injective h := h
  lineEnd_mem := mem
  newLine_lineFeed := rfl
  lineEnd_eq h := by cases h
  newLine_both h := by cases h

section

variable {ending : Text} (mem : ending ∈ lineEnds)

mutual

theorem token_ofLineEnd (ends : Bool) :
    (t : Token) → (ofLineEnd ending mem).token ends t = t.withLineEnd ending ends
  | .leaf kind text => by
    rw [token, Token.withLineEnd]
    simp [ofLineEnd]
  | .node kind children => by
    rw [token, Token.withLineEnd, tokens_ofLineEnd _ children]

theorem tokens_ofLineEnd (ends : Bool) :
    (ts : List Token) → (ofLineEnd ending mem).tokens ends ts = Token.withLineEndAll ending ends ts
  | [] => rfl
  | t :: ts => by
    rw [tokens, Token.withLineEndAll, token_ofLineEnd ends t, tokens_ofLineEnd ends ts]

end

variable {mem}

theorem value_identifier (i : Identifier) :
    ((ofLineEnd ending mem).identifier i).value = i.value := by
  have same := Token.value_withLineEnd ending i.toToken
  rwa [← token_ofLineEnd mem, token_identifier] at same

theorem value_literal (l : Literal) : ((ofLineEnd ending mem).literal l).value = l.value := by
  have same := Token.value_withLineEnd ending l.toToken
  rwa [← token_ofLineEnd mem, token_literal] at same

theorem value_keyword (k : Keyword) : ((ofLineEnd ending mem).keyword k).value = k.value := by
  have same := Token.value_withLineEnd ending k.toToken
  rwa [← token_ofLineEnd mem, token_keyword] at same

theorem comments_trivia (ts : List Trivia) :
    (ts.map (ofLineEnd ending mem).trivia).filterMap Trivia.comment? =
      ts.filterMap Trivia.comment? := by
  rw [List.filterMap_map]
  congr 1
  funext t
  cases t with
  | comment text => simp [trivia, Trivia.comment?, ofLineEnd]
  | _ => rfl

end

theorem lineFeed_mem_lineEnds : ['\n'] ∈ lineEnds := by
  simp [lineEnds]

theorem both_mem_lineEnds : ['\r', '\n'] ∈ lineEnds := by
  simp [lineEnds]

theorem text_lineFeed (t : Text) : (ofLineEnd ['\n'] lineFeed_mem_lineEnds).text t = t := by
  have same : (fun c => if c = '\n' then ['\n'] else [c]) = fun c : Char => [c] := by
    funext c
    split
    · next h => rw [h]
    · rfl
  show t.flatMap (fun c => if c = '\n' then ['\n'] else [c]) = t
  rw [same, List.flatMap_singleton']

theorem text_withReturns (t : Text) :
    (ofLineEnd ['\r', '\n'] both_mem_lineEnds).text t = t.withReturns := rfl

end Respelling

open Respelling

/-- The spelling with `\n`, which changes nothing but line ends that are written otherwise. -/
abbrev lineFeeds : Respelling := ofLineEnd ['\n'] lineFeed_mem_lineEnds

/-- The spelling with `\r\n`. -/
abbrev returnsAndLineFeeds : Respelling := ofLineEnd ['\r', '\n'] both_mem_lineEnds

/-- A tree that has `\n` for its line ends, and its other spelling. -/
theorem sameButLineEnds {ts ts' : List Token} (first : lineFeeds.tokens true ts = ts)
    (second : returnsAndLineFeeds.tokens true ts = ts') : SameButLineEnds ts ts' :=
  ⟨by rw [← tokens_ofLineEnd lineFeed_mem_lineEnds, first], by rw [← second, tokens_ofLineEnd]⟩

/-- Two readings of one text, and of it and another one, put together. -/
theorem Alike.with {α β : Type} {R : α → β → Prop} {g : α → α} {f : α → β} {x : Except Error α}
    {y : Except Error β} (same : Alike (fun a b => b = g a) x x)
    (other : Alike (fun a b => b = f a) x y) (h : ∀ a, g a = a → R a (f a)) : Alike R x y := by
  cases other with
  | ok spelled =>
    cases same with
    | ok fixed =>
      rw [spelled]
      exact .ok (h _ fixed.symm)
  | error positions => exact .error positions

section

variable {e : Char} {t : Text}

/-- What is read from a text without `\r` has `\n` for its line ends. -/
theorem lineFeeds_alike (he : IsEscape e) (noReturn : '\r' ∉ t) :
    Alike (fun a b => b = lineFeeds.arg a) (Arg.parse e t) (Arg.parse e t) ∧
    Alike (fun o b => b = lineFeeds.owner o) (Owner.parse e t) (Owner.parse e t) ∧
    Alike (fun p b => b = lineFeeds.pair p) (StartPeriod.parse e t) (StartPeriod.parse e t) := by
  have admits : lineFeeds.Admits t := fun _ => noReturn
  have arg := alike_arg he admits
  have owner := alike_owner he admits
  have flag := alike_startPeriod he admits
  rw [text_lineFeed] at arg owner flag
  exact ⟨arg, owner, flag⟩

end

theorem arg_returnsAndLineFeeds {a : Arg} (same : lineFeeds.arg a = a) :
    SameButLineEnds a.tokens (returnsAndLineFeeds.arg a).tokens ∧
      (returnsAndLineFeeds.arg a).heading.name = a.heading.name ∧
      (returnsAndLineFeeds.arg a).argName = a.argName ∧
      (returnsAndLineFeeds.arg a).argValue = a.argValue ∧
      (returnsAndLineFeeds.arg a).comments = a.comments := by
  refine ⟨sameButLineEnds (by rw [tokens_arg, same]) (tokens_arg _ a), value_keyword _,
    value_identifier _, ?_, ?_⟩
  · obtain ⟨heading, name, value, trail, escape⟩ := a
    cases value with
    | none => rfl
    | some value => exact congrArg some (value_literal value)
  · simp only [Arg.comments, Heading.comments, Respelling.arg, heading, ← List.map_append,
      comments_trivia]

theorem owner_returnsAndLineFeeds {o : Owner} (same : lineFeeds.owner o = o) :
    SameButLineEnds o.tokens (returnsAndLineFeeds.owner o).tokens ∧
      (returnsAndLineFeeds.owner o).userName = o.userName ∧
      (returnsAndLineFeeds.owner o).groupName = o.groupName := by
  refine ⟨sameButLineEnds (by rw [tokens_owner, same]) (tokens_owner _ o), value_literal _, ?_⟩
  obtain ⟨user, breaks, _ | ⟨after, group⟩, escape⟩ := o
  · rfl
  · exact congrArg some (value_literal group)

theorem flag_returnsAndLineFeeds {p : StartPeriod} (same : lineFeeds.pair p = p) :
    SameButLineEnds p.tokens (returnsAndLineFeeds.pair p).tokens ∧
      (returnsAndLineFeeds.pair p).key = p.key ∧ (returnsAndLineFeeds.pair p).value = p.value := by
  refine ⟨sameButLineEnds (by rw [tokens_pair, same]) (tokens_pair _ p), value_keyword _, ?_⟩
  obtain ⟨isFlag, keyToken, _ | ⟨between, value⟩, escape⟩ := p
  · rfl
  · exact congrArg some (value_literal value)

/-- Line ends make no difference. Of a text without `\r` and the same text with `\r\n` for every
`\n`, a declaration, an owner or a flag is read from both or from neither. The trees differ in the
texts of their line ends alone, and names, values, parts and comments are the same; failures lie at
the same line and column. -/
theorem line_ends_make_no_difference {e : Char} (he : IsEscape e) {t : Text} (noReturn : '\r' ∉ t) :
    Alike (fun a a' => SameButLineEnds a.tokens a'.tokens ∧ a'.heading.name = a.heading.name ∧
        a'.argName = a.argName ∧ a'.argValue = a.argValue ∧ a'.comments = a.comments)
      (Arg.parse e t) (Arg.parse e t.withReturns) ∧
    Alike (fun o o' => SameButLineEnds o.tokens o'.tokens ∧ o'.userName = o.userName ∧
        o'.groupName = o.groupName)
      (Owner.parse e t) (Owner.parse e t.withReturns) ∧
    Alike (fun p p' => SameButLineEnds p.tokens p'.tokens ∧ p'.key = p.key ∧ p'.value = p.value)
      (StartPeriod.parse e t) (StartPeriod.parse e t.withReturns) := by
  have admits : returnsAndLineFeeds.Admits t := fun _ => noReturn
  have arg := alike_arg he admits
  have owner := alike_owner he admits
  have flag := alike_startPeriod he admits
  rw [text_withReturns] at arg owner flag
  obtain ⟨arg', owner', flag'⟩ := lineFeeds_alike he noReturn
  exact ⟨arg'.with arg fun a same => arg_returnsAndLineFeeds same,
    owner'.with owner fun o same => owner_returnsAndLineFeeds same,
    flag'.with flag fun p same => flag_returnsAndLineFeeds same⟩

/-- A value that goes on behind a line continuation, and a comment behind it. -/
theorem line_ends_make_no_difference_sample :
    ∃ a a' : Arg, Arg.parse '\\' "ARG x=a\\\nb\n# c".toList = .ok a ∧
      Arg.parse '\\' "ARG x=a\\\r\nb\r\n# c".toList = .ok a' ∧
      SameButLineEnds a.tokens a'.tokens ∧ a'.argValue = a.argValue ∧ a'.comments = a.comments := by
  have noReturn : '\r' ∉ "ARG x=a\\\nb\n# c".toList := by decide
  have alike := (line_ends_make_no_difference (.inl rfl) noReturn).1
  have written : Text.withReturns "ARG x=a\\\nb\n# c".toList = "ARG x=a\\\r\nb\r\n# c".toList := by
    decide
  obtain ⟨a, read⟩ := exists_of_isOk
    (by decide +kernel : (Arg.parse '\\' "ARG x=a\\\nb\n# c".toList).isOk = true)
  rw [written] at alike
  obtain ⟨a', read', same, -, -, value, comments⟩ := alike.exists_ok read
  exact ⟨a, a', read, read', same, value, comments⟩

end DockerfileSyntax
