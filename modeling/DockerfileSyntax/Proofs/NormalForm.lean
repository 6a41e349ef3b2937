import DockerfileSyntax.Proofs.Inert
import DockerfileSyntax.Proofs.Names
import DockerfileSyntax.Token.Walk

/-!
# Normal form

In a tree in normal form no string is empty or next to another one, line continuations and
references to variables look as they do when they are read, and a word within a reference is a
literal without quotes: `Token.IsNormal` says so of one token, `Token.InNormalForm` of a tree down
to its leaves.

1. `merged_mergeStrings`: joining strings leaves none that is empty and no two next to each other.
2. `Part.inNormalForm`, `Literal.WellFormed.inNormalForm`, `inNormalForm_of_isName`,
   `Keyword.inNormalForm`: whatever the grammars read is in normal form.
3. `inNormalForm_resolveAll`: so are trees whose references have been expanded, even if the
   expansion has stopped halfway.
-/

namespace DockerfileSyntax

open Grammar DockerfileSyntax.Parser

/-! ## Normal tokens -/

/-- The text of the string that the token is, if it is one. -/
def Token.string? : Token → Option Text
  | .string text => some text
  | _ => none

/-- Among the tokens no string is empty, and no two strings are neighbours. -/
structure Merged (ts : List Token) : Prop where
  nonempty : ∀ t ∈ ts, t.string? ≠ some []
  apart : ts.IsChain fun s t => s.string? = none ∨ t.string? = none

/-- The parts of a reference: the name of a variable, and within braces perhaps a modifier and a
word without quotes. -/
inductive ReferenceParts : Bool → List Token → Prop
  | plain {braced : Bool} {name : Text} :
      isVariableName name = true → ReferenceParts braced [.string name]
  | modified {name symbol : Text} {word : List Token} :
      isVariableName name = true → (Modifier.ofSymbol? symbol).isSome = true →
      ReferenceParts true [.string name, .symbol symbol, .literal none word]

namespace Token

/-- The parts of the token are as they are in normal form; what is below them is left open. -/
def IsNormal (e : Char) : Token → Prop
  | .leaf _ _ => True
  | .node .continuation children => (⟨children⟩ : Continuation).IsBreak e
  | .node .keyword children => Merged children
  | .node (.identifier _) children => Merged children
  | .node (.literal _) children => Merged children
  | .node (.reference braced) children => ReferenceParts braced children

/-- The token and all tokens below it are normal. -/
def InNormalForm (e : Char) (t : Token) : Prop := ∀ s ∈ t.preorder, s.IsNormal e

theorem forall_preorderAll_iff {P : Token → Prop} {ts : List Token} :
    (∀ s ∈ preorderAll ts, P s) ↔ ∀ t ∈ ts, ∀ s ∈ t.preorder, P s := by
  induction ts with
  | nil => simp [preorderAll]
  | cons t ts ih => rw [preorderAll, List.forall_mem_append, List.forall_mem_cons, ih]

theorem inNormalForm_leaf (e : Char) (kind : LeafKind) (text : Text) :
    InNormalForm e (.leaf kind text) := by
  simp [InNormalForm, preorder, IsNormal]

theorem inNormalForm_node {e : Char} {kind : NodeKind} {children : List Token} :
    InNormalForm e (.node kind children) ↔
      IsNormal e (.node kind children) ∧ ∀ t ∈ children, t.InNormalForm e := by
  rw [InNormalForm, preorder, List.forall_mem_cons, forall_preorderAll_iff]
  rfl

end Token

open Token

/-! ## Joined strings -/

theorem merged_nil : Merged [] := ⟨by simp, .nil⟩

theorem Merged.cons {t : Token} {ts : List Token} (h : Merged ts) (noString : t.string? = none) :
    Merged (t :: ts) :=
  ⟨List.forall_mem_cons.mpr ⟨by simp [noString], h.nonempty⟩,
    List.isChain_cons.mpr ⟨fun _ _ => .inl noString, h.apart⟩⟩

theorem Merged.string {text : Text} {ts : List Token} (h : Merged ts) (nonempty : text ≠ [])
    (apart : ∀ t, ts.head? = some t → t.string? = none) : Merged (.string text :: ts) :=
  ⟨List.forall_mem_cons.mpr ⟨by simpa [string?] using nonempty, h.nonempty⟩,
    List.isChain_cons.mpr ⟨fun t ht => .inr (apart t ht), h.apart⟩⟩

theorem merged_singleton {text : Text} (nonempty : text ≠ []) : Merged [.string text] :=
  merged_nil.string nonempty nofun

theorem string?_eq_some {t : Token} {text : Text} : t.string? = some text ↔ t = .string text := by
  constructor
  · intro h
    unfold string? at h
    split at h
    · rw [Option.some.inj h]
    · cases h
  · rintro rfl
    rfl

/-- What stands behind a string is none. -/
theorem Merged.head_of_string {text : Text} {ts : List Token} (h : Merged (.string text :: ts)) :
    ∀ t, ts.head? = some t → t.string? = none := by
  intro t ht
  rcases (List.isChain_cons.mp h.apart).1 t ht with noString | noString
  · cases noString
  · exact noString

theorem Merged.tail {t : Token} {ts : List Token} (h : Merged (t :: ts)) : Merged ts :=
  ⟨(List.forall_mem_cons.mp h.nonempty).2, (List.isChain_cons.mp h.apart).2⟩

theorem Merged.prependText {ts : List Token} (h : Merged ts) (text : Text) :
    Merged (prependText text ts) := by
  unfold DockerfileSyntax.prependText
  split
  · next more others =>
    have hasText : more ≠ [] := by
      simpa [string?] using h.nonempty _ List.mem_cons_self
    exact h.tail.string (by simp [hasText]) h.head_of_string
  · next notString =>
    split
    · exact h
    · next nonempty =>
      refine h.string (by simpa using nonempty) fun t ht => ?_
      obtain ⟨others, rfl⟩ := List.head?_eq_some_iff.mp ht
      rw [Option.eq_none_iff_forall_ne_some]
      intro more isString
      obtain rfl := string?_eq_some.mp isString
      exact notString more others rfl

/-- Joining strings leaves none that is empty, and no two that are neighbours. -/
theorem merged_mergeStrings (ts : List Token) : Merged (mergeStrings ts) := by
  induction ts with
  | nil => exact merged_nil
  | cons t ts ih =>
    cases t with
    | node kind children => exact ih.cons rfl
    | leaf kind text =>
      cases kind with
      | string => exact ih.prependText text
      | _ => exact ih.cons rfl

/-- Being joined depends on the strings alone. -/
theorem merged_congr {s t : List Token} (h : s.map string? = t.map string?) (merged : Merged s) :
    Merged t := by
  refine ⟨fun u hu => ?_, ?_⟩
  · have mem : u.string? ∈ s.map string? := by
      rw [h]
      exact List.mem_map_of_mem hu
    obtain ⟨v, hv, same⟩ := List.mem_map.mp mem
    rw [← same]
    exact merged.nonempty v hv
  · have chain : (s.map string?).IsChain fun a b => a = none ∨ b = none :=
      (List.isChain_map string?).mpr merged.apart
    rw [h] at chain
    exact (List.isChain_map string?).mp chain

/-! ## What is read -/

theorem Continuation.IsBreak.inNormalForm {e : Char} {k : Continuation} (h : k.IsBreak e) :
    k.toToken.InNormalForm e := by
  refine inNormalForm_node.mpr ⟨h, ?_⟩
  obtain ⟨gap, ending, -, -, rfl⟩ := h
  cases gap <;> simp [Continuation.broken, blankTokens, inNormalForm_leaf]

theorem Trivia.IsPlain.inNormalForm {e : Char} {t : Trivia} (h : t.IsPlain e) :
    t.toToken.InNormalForm e := by
  cases t with
  | continuation k => exact Continuation.IsBreak.inNormalForm h
  | _ => exact inNormalForm_leaf e _ _

theorem PlainTrivia.inNormalForm {e : Char} {trivia : List Trivia} (h : PlainTrivia e trivia) :
    ∀ t ∈ trivia.map Trivia.toToken, t.InNormalForm e := by
  intro t ht
  obtain ⟨t, mem, rfl⟩ := List.mem_map.mp ht
  exact (h t mem).inNormalForm

theorem inNormalForm_breaks {e : Char} {breaks : List Continuation}
    (h : ∀ k ∈ breaks, k.IsBreak e) :
    ∀ t ∈ breaks.map Continuation.toToken, t.InNormalForm e := by
  intro t ht
  obtain ⟨k, mem, rfl⟩ := List.mem_map.mp ht
  exact (h k mem).inNormalForm

theorem inNormalForm_wordParts {e : Char} {ts : List Token} (h : ∀ t ∈ ts, WordPart e t) :
    ∀ t ∈ ts, t.InNormalForm e := by
  intro t ht
  cases h t ht with
  | string text => exact inNormalForm_leaf e _ text
  | break_ isBreak => exact isBreak.inNormalForm

theorem Keyword.inNormalForm {e : Char} {k : Keyword} (merged : Merged k.children)
    (h : ∀ t ∈ k.children, WordPart e t) : k.toToken.InNormalForm e :=
  inNormalForm_node.mpr ⟨merged, inNormalForm_wordParts h⟩

/-- The strings of a keyword are joined. -/
theorem Grammar.gives_merged_keyword (e : Char) (name : Text) :
    Gives (keyword e name) fun k => Merged k.children := by
  refine .attempt ?_
  cases name with
  | nil => exact gives_pure merged_nil
  | cons letter letters =>
    exact (gives_any _).bind fun head _ => (gives_any _).bind fun tail _ =>
      gives_pure (merged_mergeStrings _)

/-- The name of an argument is made of strings and line continuations. -/
theorem IsName.wordParts {e : Char} {children : List Token} (h : IsName e children) :
    ∀ t ∈ children, WordPart e t := by
  obtain ⟨head, items, -, all, rfl⟩ := h
  refine (forall_mem_mergeStrings .string).mpr (List.forall_mem_cons.mpr ⟨.string _, ?_⟩)
  intro t ht
  obtain ⟨item, hi, ht⟩ := List.mem_flatten.mp ht
  cases all item hi with
  | escaped _ =>
    obtain rfl := List.mem_singleton.mp ht
    exact .string _
  | char isBreak _ =>
    rcases List.mem_append.mp ht with ht | ht
    · obtain ⟨k, hk, rfl⟩ := List.mem_map.mp ht
      exact .break_ (isBreak k hk)
    · obtain rfl := List.mem_singleton.mp ht
      exact .string _

/-- The strings of a name are joined. -/
theorem inNormalForm_of_isName {e : Char} {i : Identifier} (h : IsName e i.children) :
    i.toToken.InNormalForm e := by
  refine inNormalForm_node.mpr ⟨?_, inNormalForm_wordParts h.wordParts⟩
  obtain ⟨head, items, -, -, same⟩ := h
  rw [same]
  exact merged_mergeStrings _

/-- Within a word no string is empty, and no two are neighbours. -/
theorem Word.merged {rules : ContentRules} {ts : List Token} (h : Word rules ts) : Merged ts := by
  refine ⟨fun t ht => ?_, h.joined.neighbours.imp fun s t apart => ?_⟩
  · cases h.parts t ht with
    | string nonempty _ => simpa [string?] using nonempty
    | _ => exact nofun
  · cases hs : s.string? with
    | none => exact .inl rfl
    | some text =>
      cases ht : t.string? with
      | none => exact .inr rfl
      | some more =>
        rw [string?_eq_some.mp hs, string?_eq_some.mp ht] at apart
        cases apart

/-- What may be among the tokens of content is in normal form. -/
theorem Part.inNormalForm {rules : ContentRules} {t : Token} (h : Part rules t) :
    t.InNormalForm rules.escape := by
  induction h with
  | string _ _ => exact inNormalForm_leaf _ _ _
  | continuation isBreak => exact isBreak.inNormalForm
  | bare isName | braced isName =>
    exact inNormalForm_node.mpr ⟨.plain isName, by simp [inNormalForm_leaf]⟩
  | @modified rules name m word isName parts joined ih =>
    have isWord : Word (.word rules.escape) word := ⟨parts, joined⟩
    refine inNormalForm_node.mpr ⟨.modified isName (by simp), ?_⟩
    simp only [List.forall_mem_cons]
    exact ⟨inNormalForm_leaf _ _ _, inNormalForm_leaf _ _ _,
      inNormalForm_node.mpr ⟨isWord.merged, ih⟩, by simp⟩

theorem Word.inNormalForm {rules : ContentRules} {quote : Option Quote} {ts : List Token}
    (h : Word rules ts) : InNormalForm rules.escape (.literal quote ts) :=
  inNormalForm_node.mpr ⟨h.merged, fun t ht => (h.parts t ht).inNormalForm⟩

theorem inNormalForm_literal_nil (e : Char) (quote : Option Quote) :
    InNormalForm e (.literal quote []) :=
  inNormalForm_node.mpr ⟨merged_nil, by simp⟩

theorem Literal.WellFormed.inNormalForm {e : Char} {spacing : Spacing} {excluded : List Char}
    {l : Literal} (h : l.WellFormed e spacing excluded) : l.toToken.InNormalForm e := by
  obtain ⟨quote, children⟩ := l
  cases quote with
  | none => exact Word.inNormalForm h.1
  | some quote =>
    have isWord : Word (.quoted e quote) children := h
    exact isWord.inNormalForm

/-! ## What is expanded -/

section Expansion

variable {env : Environment} {e : Char}

theorem inNormalForm_expandParts {ts parts : List Token} (h : ∀ t ∈ ts, t.InNormalForm e)
    (expanded : expandParts env ts = .ok parts) : ∀ t ∈ parts, t.InNormalForm e := by
  induction ts generalizing parts with
  | nil =>
    cases expanded
    exact h
  | cons t ts ih =>
    obtain ⟨first, others⟩ := List.forall_mem_cons.mp h
    obtain ⟨part, more, hp, hs, rfl⟩ := expandParts_cons_eq_ok.mp expanded
    refine List.forall_mem_cons.mpr ⟨?_, ih others hs⟩
    rcases expandPart_cases hp with ⟨-, text, rfl⟩ | ⟨-, rfl⟩
    · exact inNormalForm_leaf e _ text
    · exact first

/-- In any quote the parts that are left are joined and in normal form. -/
theorem inNormalForm_expandWithin {quote : Option Quote} {children parts : List Token}
    (merged : Merged children) (h : ∀ t ∈ children, t.InNormalForm e)
    (expanded : expandWithin env quote children = .ok parts) :
    Merged parts ∧ ∀ t ∈ parts, t.InNormalForm e := by
  rcases expandWithin_eq_ok.mp expanded with ⟨-, rfl⟩ | ⟨-, expansions, found, rfl⟩
  · exact ⟨merged, h⟩
  · refine ⟨merged_mergeStrings _, (forall_mem_mergeStrings fun text => ?_).mpr ?_⟩
    · exact inNormalForm_leaf e _ text
    · exact inNormalForm_expandParts h found

theorem Literal.inNormalForm_resolve {l l' : Literal} (h : l.toToken.InNormalForm e)
    (resolved : l.resolve env = .ok l') : l'.toToken.InNormalForm e := by
  obtain ⟨merged, parts⟩ := inNormalForm_node.mp h
  rw [Literal.resolve] at resolved
  cases expanded : expandWithin env l.quote l.children with
  | error unset =>
    rw [expanded] at resolved
    cases resolved
  | ok children =>
    rw [expanded] at resolved
    cases resolved
    exact inNormalForm_node.mpr (inNormalForm_expandWithin merged parts expanded)

/-- A node stays a node of its kind. -/
theorem exists_resolve_node (env : Environment) (kind : NodeKind) (children : List Token) :
    ∃ parts, (resolve env (.node kind children)).result = .node kind parts := by
  cases kind with
  | identifier quote | literal quote =>
    rw [resolve]
    cases expandWithin env quote children with
    | ok parts => exact ⟨parts, rfl⟩
    | error unset => exact ⟨children, rfl⟩
  | continuation | keyword | reference => exact ⟨_, rfl⟩

theorem string?_resolve (env : Environment) (t : Token) :
    (resolve env t).result.string? = t.string? := by
  cases t with
  | leaf kind text => rfl
  | node kind children =>
    obtain ⟨parts, same⟩ := exists_resolve_node env kind children
    rw [same]
    rfl

/-- Where strings stand among tokens is not changed. -/
theorem map_string?_resolveAll (env : Environment) (ts : List Token) :
    (resolveAll env ts).result.map string? = ts.map string? := by
  induction ts with
  | nil => rfl
  | cons t ts ih =>
    rw [resolveAll]
    cases (resolve env t).error with
    | none => simp [string?_resolve, ih]
    | some unset => simp [string?_resolve]

theorem Merged.resolveAll {ts : List Token} (h : Merged ts) (env : Environment) :
    Merged (resolveAll env ts).result :=
  merged_congr (map_string?_resolveAll env ts).symm h

/-- A reference keeps its parts, except that its word is expanded. -/
theorem ReferenceParts.resolveAll {braced : Bool} {children : List Token}
    (h : ReferenceParts braced children) (env : Environment) :
    ReferenceParts braced (resolveAll env children).result := by
  cases h with
  | plain isName => exact .plain isName
  | @modified name symbol word isName isModifier =>
    obtain ⟨parts, same⟩ := exists_resolve_node env (.literal none) word
    have behind : (Token.resolveAll env [.literal none word]).result = [.literal none parts] := by
      rw [Token.resolveAll, same]
      cases (resolve env (.literal none word)).error <;> rfl
    have leaves : ∀ t ∈ [Token.string name, .symbol symbol], t.Inert env := by simp [inert_leaf]
    have whole := congrArg Progress.result (resolveAll_append leaves [.literal none word])
    rw [behind] at whole
    have same : (Token.resolveAll env [.string name, .symbol symbol, .literal none word]).result =
      [.string name, .symbol symbol, .literal none parts] := whole
    rw [same]
    exact .modified isName isModifier

mutual

/-- A tree in normal form is in normal form once its references have been expanded. -/
theorem inNormalForm_resolve (env : Environment) (e : Char) : ∀ t : Token, t.InNormalForm e →
    (t.resolve env).result.InNormalForm e
  | .leaf kind text, h => h
  | .node kind children, h => by
    obtain ⟨isNormal, parts⟩ := inNormalForm_node.mp h
    have below := inNormalForm_resolveAll env e children parts
    cases kind with
    | continuation =>
      have same : (Token.continuation children).resolve env = ⟨.continuation children, none⟩ :=
        Continuation.IsBreak.inert isNormal
      rw [same]
      exact h
    | keyword => exact inNormalForm_node.mpr ⟨Merged.resolveAll isNormal env, below⟩
    | reference braced =>
      exact inNormalForm_node.mpr ⟨ReferenceParts.resolveAll isNormal env, below⟩
    | identifier quote | literal quote =>
      rw [Token.resolve]
      cases expanded : expandWithin env quote children with
      | error unset => exact h
      | ok children' =>
        exact inNormalForm_node.mpr (inNormalForm_expandWithin isNormal parts expanded)

/-- The same is true of trees in a row, even if the expansion has failed on the way. -/
theorem inNormalForm_resolveAll (env : Environment) (e : Char) : ∀ ts : List Token,
    (∀ t ∈ ts, t.InNormalForm e) → ∀ t ∈ (resolveAll env ts).result, t.InNormalForm e
  | [], h => h
  | t :: ts, h => by
    obtain ⟨first, others⟩ := List.forall_mem_cons.mp h
    have resolved := inNormalForm_resolve env e t first
    rw [resolveAll]
    cases (t.resolve env).error with
    | some unset => exact List.forall_mem_cons.mpr ⟨resolved, others⟩
    | none => exact List.forall_mem_cons.mpr ⟨resolved, inNormalForm_resolveAll env e ts others⟩

end

end Expansion

end DockerfileSyntax
