import DockerfileSyntax.Proofs.Arg.Obtained
import DockerfileSyntax.Proofs.Arg.Shape
import DockerfileSyntax.Proofs.Content.Stripping
import DockerfileSyntax.Proofs.Owner.Edits

/-!
# Edits of a declaration are local

An edit that succeeds exchanges the tokens of one part, the keyword, the name or the value, and
leaves all other tokens where they are. This holds of a declaration whatever has been done to it
before.

1. `IsName.strip_render`: the value of a name is its text without line continuations.
2. `Arg.edits_exchange`: which tokens an edit exchanges, and for which text.
-/

namespace DockerfileSyntax

open Grammar DockerfileSyntax.Parser

/-! ## Names and values without line continuations -/

section Stripping

variable {e : Char}

theorem strips_breaks (he : IsEscape e) {breaks : List Continuation}
    (h : ∀ k ∈ breaks, k.IsBreak e) : Strips e (breaksText breaks) [] := by
  induction breaks with
  | nil => exact .nil
  | cons k breaks ih =>
    obtain ⟨first, others⟩ := List.forall_mem_cons.mp h
    exact (Strips.break_ he first).append (ih others)

theorem strips_of_isArgNameChar (he : IsEscape e) {c : Char} (h : isArgNameChar c = true) :
    Strips e [c] [c] :=
  .char (ne_of_class h he.not_isArgNameChar) (not_isLineEnd_of_isArgNameChar h)

theorem LaterItem.strips (he : IsEscape e) {item : List Token} (h : LaterItem e item) :
    Strips e (Token.renderAll item) (Token.valueAll item) := by
  cases h with
  | escaped inLine => exact .pair he inLine
  | @char breaks c all isChar =>
    rw [Token.renderAll_append, valueAll_breaks]
    exact (strips_breaks he all).append (strips_of_isArgNameChar he isChar)

/-- The value of a name is its text without line continuations. -/
theorem IsName.strip_render (he : IsEscape e) {children : List Token} (h : IsName e children) :
    Text.strip e (Token.renderAll children) = Token.valueAll children := by
  obtain ⟨head, items, isFirst, all, rfl⟩ := h
  have tail : Strips e (Token.renderAll items.flatten) (Token.valueAll items.flatten) := by
    induction items with
    | nil => exact .nil
    | cons item items ih =>
      obtain ⟨first, others⟩ := List.forall_mem_cons.mp all
      rw [List.flatten_cons, Token.renderAll_append, Token.valueAll_append]
      exact (first.strips he).append (ih others)
  have first := strips_of_isArgNameChar he (isArgNameChar_of_isAlphabetic isFirst)
  rw [renderAll_mergeStrings, valueAll_mergeStrings]
  exact (first.append tail).strip_eq

/-- The value of what was read for a text is this text without line continuations. -/
theorem Literal.value_of_readContent (he : IsEscape e) {field : EditField} {excluded : List Char}
    {allowEmpty : Bool} {quote : Option Quote} {value : Text} {children : List Token}
    (h : readContent field e excluded allowEmpty quote value = .ok children) :
    Literal.value ⟨quote, children⟩ = value.strip e := by
  obtain ⟨rfl, ⟨-, -, rfl⟩ | wellFormed⟩ := readContent_sound h
  · exact (Text.strip_nil e).symm
  · cases quote with
    | some quote => exact (Word.strip_render wellFormed he).symm
    | none => exact (Word.strip_render wellFormed.1 he).symm

end Stripping

namespace Arg

/-! ## Exchanged tokens -/

/-- From `a` to `b`, the tokens `old` between `before` and `behind` have become the tokens `new`,
and `text` is their text. No other token and no other text has changed, and so the comments are the
same. -/
structure Exchanges (a b : Arg) (before old new behind : List Token) (text : Text) : Prop where
  tokens : a.tokens = before ++ (old ++ behind)
  tokens' : b.tokens = before ++ (new ++ behind)
  render : a.render = Token.renderAll before ++ (Token.renderAll old ++ Token.renderAll behind)
  render' : b.render = Token.renderAll before ++ (text ++ Token.renderAll behind)
  comments : b.comments = a.comments

theorem Exchanges.of_tokens {a b : Arg} {before old new behind : List Token} {text : Text}
    (tokens : a.tokens = before ++ (old ++ behind)) (tokens' : b.tokens = before ++ (new ++ behind))
    (isText : Token.renderAll new = text) (comments : b.comments = a.comments) :
    Exchanges a b before old new behind text := by
  refine ⟨tokens, tokens', ?_, ?_, comments⟩
  · rw [Arg.render, tokens, Token.renderAll_append, Token.renderAll_append]
  · rw [Arg.render, tokens', Token.renderAll_append, Token.renderAll_append, isText]

/-- The value is exchanged behind the name, and with it the equals sign where there is only one of
the two values. -/
theorem exchanges_value (a : Arg) (value : Option Literal) :
    ∃ before behind, Exchanges a { a with value } (before ++ [a.name.toToken])
      (assignedTokens a.value) (assignedTokens value) behind (assignedText value) := by
  refine ⟨a.opening, a.trail.map Trivia.toToken, .of_tokens ?_ ?_ ?_ rfl⟩
  · simp [tokens_eq_opening]
  · simp [tokens_eq_opening, opening]
  · cases value <;> simp [assignedTokens, assignedText, Literal.render]

theorem exchanges_name (a : Arg) (children : List Token) :
    ∃ before behind, Exchanges a { a with name := { a.name with children } } before
      [.identifier a.name.quote a.name.children] [.identifier a.name.quote children] behind
      (Quote.mark a.name.quote ++ Token.renderAll children ++ Quote.mark a.name.quote) := by
  refine ⟨a.opening, assignedTokens a.value ++ a.trail.map Trivia.toToken, .of_tokens ?_ ?_ ?_ rfl⟩
  · simp [tokens_eq_opening, Identifier.toToken]
  · simp [tokens_eq_opening, opening, Identifier.toToken]
  · simp

theorem exchanges_keyword (a : Arg) (keyword : Keyword) :
    ∃ before behind, Exchanges a { a with heading := { a.heading with keyword } } before
      [a.heading.keyword.toToken] [keyword.toToken] behind keyword.render := by
  refine ⟨a.heading.lead.map Trivia.toToken, a.heading.gap.map Trivia.toToken ++
    a.name.toToken :: (assignedTokens a.value ++ a.trail.map Trivia.toToken),
    .of_tokens ?_ ?_ ?_ rfl⟩
  · simp [tokens_eq]
  · simp [tokens_eq]
  · simp [Keyword.render]

theorem quote_getD_empty (value : Option Literal) :
    (value.getD .empty).quote = value.bind Literal.quote := by
  cases value <;> rfl

/-- What is read as a name without quotes has the form of a name and is the whole text. -/
theorem name_of_read {e : Char} {text : Text} {found : Identifier}
    (h : complete (Grammar.argName e) text = .ok found) (bare : found.quote = none) :
    IsName e found.children ∧ Token.renderAll found.children = text := by
  refine ⟨run_argName_sound (complete_eq_ok.mp h), ?_⟩
  have whole : found.render = text := (lossless_identifier _).text_eq h
  simpa [Identifier.render, Identifier.toToken, bare, Quote.mark] using whole

/-- A new value stands in the quotes of the old one or in those that it needs. -/
theorem exchanges_of_setArgValue {a b : Arg} (he : IsEscape a.escape) {v : Text}
    (accepted : Edit.apply (setArgValue (some v)) a = ⟨b, none⟩) :
    ∃ before behind l, Exchanges a b (before ++ [a.name.toToken]) (assignedTokens a.value)
        [.punctuation ['='], Literal.toToken l] behind
        ('=' :: Owner.newText (a.value.bind Literal.quote) v) ∧
      b.argValue = some (v.strip a.escape) := by
  rw [apply_setArgValue] at accepted
  cases read : Literal.readContent .argValue a.escape [] true
      ((a.value.getD .empty).quoteWith v) v with
  | error error =>
    rw [read] at accepted
    cases accepted
  | ok children =>
    rw [read] at accepted
    cases accepted
    obtain ⟨before, behind, exchanges⟩ :=
      exchanges_value a (some ⟨(a.value.getD .empty).quoteWith v, children⟩)
    have text := Owner.render_eq_newText (a.value.getD .empty) (Literal.readContent_sound read).1
    rw [quote_getD_empty] at text
    rw [assignedText, text] at exchanges
    have value := Literal.value_of_readContent he read
    exact ⟨before, behind, _, exchanges, congrArg some value⟩

theorem exchanges_of_setArgName {a b : Arg} (he : IsEscape a.escape) {n : Text}
    (accepted : Edit.apply (setArgName n) a = ⟨b, none⟩) :
    ∃ before behind children, Exchanges a b before [.identifier a.name.quote a.name.children]
        [.identifier a.name.quote children] behind
        (Quote.mark a.name.quote ++ n ++ Quote.mark a.name.quote) ∧
      b.argName = n.strip a.escape := by
  rcases setArgName_cases n a with ⟨_, refused⟩ | ⟨found, read, bare, done⟩
  · rw [Edit.apply_of_error refused] at accepted
    cases accepted
  · rw [Edit.apply_of_ok done] at accepted
    cases accepted
    obtain ⟨before, behind, exchanges⟩ := exchanges_name a found.children
    obtain ⟨isName, text⟩ := name_of_read read bare
    rw [text] at exchanges
    have value : Token.valueAll found.children = n.strip a.escape := by
      rw [← isName.strip_render he, text]
    exact ⟨before, behind, found.children, exchanges, value⟩

theorem exchanges_of_setInstructionName {a b : Arg} {n : Text}
    (accepted : Edit.apply (setInstructionName n) a = ⟨b, none⟩) :
    ∃ before behind, Exchanges a b before [a.heading.keyword.toToken]
      [.keyword [.string n.toUpperCase]] behind n.toUpperCase := by
  rcases setInstructionName_cases n a with ⟨_, _, refused⟩ | ⟨-, done⟩
  · rw [refused] at accepted
    cases accepted
  · rw [done] at accepted
    cases accepted
    obtain ⟨before, behind, exchanges⟩ := exchanges_keyword a (.new n.toUpperCase)
    have text : (Keyword.new n.toUpperCase).render = n.toUpperCase := by
      simp [Keyword.render, Keyword.toToken, Keyword.new]
    rw [text] at exchanges
    exact ⟨before, behind, exchanges⟩

/-- An edit of a declaration exchanges one part, whatever has been done to the declaration before.
The new value stands behind the name and the equals sign, in the quotes that the old one has or, if
it has none, in those that it needs; it is read as its text without line continuations. The removal
of the value takes the equals sign with it. A new name stands in the quotes of the old one. The
instruction takes its new name in upper case. -/
theorem edits_exchange {e : Char} (he : IsEscape e) {a : Arg} (h : Obtained e a) :
    (∀ v b, Edit.apply (setArgValue (some v)) a = ⟨b, none⟩ → ∃ before behind l,
      Exchanges a b (before ++ [a.name.toToken]) (assignedTokens a.value)
        [.punctuation ['='], Literal.toToken l] behind
        ('=' :: Owner.newText (a.value.bind Literal.quote) v) ∧
      b.argValue = some (v.strip e)) ∧
    (∃ b, Edit.apply (setArgValue none) a = ⟨b, none⟩ ∧ ∃ before behind,
      Exchanges a b (before ++ [a.name.toToken]) (assignedTokens a.value) [] behind [] ∧
      b.argValue = none) ∧
    (∀ n b, Edit.apply (setArgName n) a = ⟨b, none⟩ → ∃ before behind children,
      Exchanges a b before [.identifier a.name.quote a.name.children]
        [.identifier a.name.quote children] behind
        (Quote.mark a.name.quote ++ n ++ Quote.mark a.name.quote) ∧
      b.argName = n.strip e) ∧
    ∀ n b, Edit.apply (setInstructionName n) a = ⟨b, none⟩ → ∃ before behind,
      Exchanges a b before [a.heading.keyword.toToken] [.keyword [.string n.toUpperCase]] behind
        n.toUpperCase := by
  obtain rfl := h.formed.escape
  refine ⟨fun v b => exchanges_of_setArgValue he, ⟨{ a with value := none }, rfl, ?_⟩,
    fun n b => exchanges_of_setArgName he, fun n b => exchanges_of_setInstructionName⟩
  obtain ⟨before, behind, exchanges⟩ := exchanges_value a none
  exact ⟨before, behind, exchanges, rfl⟩

/-- `ARG x=1 #c` becomes `ARG y=1 #c`, and then `ARG y="a b" #c`. -/
theorem edits_exchange_sample :
    ∃ start a b, parse '\\' "ARG x=1 #c".toList = .ok start ∧
      Edit.apply (setArgName ['y']) start = ⟨a, none⟩ ∧ a.render = "ARG y=1 #c".toList ∧
      Edit.apply (setArgValue (some ['a', ' ', 'b'])) a = ⟨b, none⟩ ∧
      b.render = "ARG y=\"a b\" #c".toList ∧ Obtained '\\' a ∧
      ∃ before behind l, Exchanges a b (before ++ [a.name.toToken]) (assignedTokens a.value)
        [.punctuation ['='], Literal.toToken l] behind ['=', '"', 'a', ' ', 'b', '"'] := by
  obtain ⟨start, h⟩ := exists_of_isOk (x := parse '\\' "ARG x=1 #c".toList) (by decide +kernel)
  obtain ⟨a, renamed, facts⟩ := Edit.exists_accepted
    (g := fun a => (a.render, a.value.bind Literal.quote)) (b := ("ARG y=1 #c".toList, none))
    (setArgName ['y']) (fun a => a) h (by decide +kernel)
  obtain ⟨text, bare⟩ := Prod.mk.inj facts
  obtain ⟨b, accepted, text'⟩ := Edit.exists_accepted (g := render)
    (b := "ARG y=\"a b\" #c".toList) (setArgValue (some ['a', ' ', 'b']))
    (fun a => (Edit.apply (setArgName ['y']) a).result) h (by decide +kernel)
  have obtained : Obtained '\\' _ := .edited (.name ['y']) (.read h)
  rw [Change.run, renamed] at obtained
  rw [renamed] at accepted
  obtain ⟨onValue, -⟩ := edits_exchange (.inl rfl) obtained
  obtain ⟨before, behind, l, exchanges, -⟩ := onValue _ _ accepted
  rw [bare] at exchanges
  exact ⟨start, a, b, h, renamed, text, accepted, text', obtained, before, behind, l, exchanges⟩

end Arg

end DockerfileSyntax
