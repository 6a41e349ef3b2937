import DockerfileSyntax.Proofs.Reading.Grammar

/-!
# Reading loses nothing

A parser is lossless if the text of its result is the text that it has read: no character is
dropped, doubled or moved, on whatever way through the alternatives the result was found. All
grammars of this library are lossless, for every escape character, and so a declaration, an owner, a
flag or a pair that was read renders to the very text it was read from.
-/

namespace DockerfileSyntax

namespace Parser

variable {α β : Type}

/-- Behind `before`, all that `p` reads is in the text of its result. -/
structure Keeps (before : Text) (p : Parser α) (text : α → Text) : Prop where
  append_eq : ∀ {s r a}, run p s = some (a, r) → before ++ s = text a ++ r

/-- All that `p` reads is in the text of its result. -/
abbrev Lossless (p : Parser α) (text : α → Text) : Prop := Keeps [] p text

theorem Keeps.pure {before : Text} {a : α} {text : α → Text} (h : before = text a) :
    Keeps before (pure a) text := by
  refine ⟨fun {s r b} hr => ?_⟩
  obtain ⟨rfl, rfl⟩ := run_pure_eq_some.mp hr
  rw [h]

theorem Keeps.bind {before : Text} {p : Parser α} {f : α → Parser β} {t : α → Text}
    {text : β → Text} [∀ a, Regular (f a)] (h : Lossless p t)
    (h' : ∀ a, Keeps (before ++ t a) (f a) text) : Keeps before (p >>= f) text := by
  refine ⟨fun {s r b} hr => ?_⟩
  obtain ⟨a, m, hp, hf⟩ := run_bind_eq_some.mp hr
  have first : s = t a ++ m := h.append_eq hp
  rw [first, ← List.append_assoc]
  exact (h' a).append_eq hf

theorem Keeps.attempt {before : Text} {p : Parser α} {text : α → Text} (h : Keeps before p text) :
    Keeps before (attempt p) text := by
  refine ⟨fun {s r a} hr => ?_⟩
  rw [run_attempt] at hr
  exact h.append_eq hr

theorem Keeps.ite {before : Text} {p q : Parser α} {text : α → Text} {P : Prop} [Decidable P]
    (h : Keeps before p text) (h' : Keeps before q text) :
    Keeps before (if P then p else q) text := by
  split
  · exact h
  · exact h'

theorem Keeps.fail {before : Text} {what : Expectation} {text : α → Text} :
    Keeps before (fail what) text := by
  refine ⟨fun {s r a} hr => ?_⟩
  rw [run_fail] at hr
  cases hr

theorem lossless_satisfy (what : Expectation) (holds : Char → Bool) :
    Lossless (satisfy what holds) fun c => [c] := by
  refine ⟨fun {s r c} hr => ?_⟩
  exact (run_satisfy_eq_some.mp hr).1

theorem lossless_takeWhile (holds : Char → Bool) : Lossless (takeWhile holds) id := by
  refine ⟨fun {s r t} hr => ?_⟩
  rw [run_takeWhile] at hr
  cases hr
  exact List.takeWhile_append_dropWhile.symm

theorem lossless_eat (text : Text) : Lossless (eat text) fun _ => text := by
  refine ⟨fun {s r u} hr => ?_⟩
  exact run_eat_eq_some.mp hr

theorem lossless_choose (what : Expectation) (spelling : α → Text) (options : List α) :
    Lossless (choose what spelling options) spelling := by
  refine ⟨fun {s r a} hr => ?_⟩
  exact (eq_append_of_run_choose hr).2

theorem lossless_sees (p : Parser α) : Lossless (sees p) fun _ => [] := by
  refine ⟨fun {s r b} hr => ?_⟩
  rw [run_sees] at hr
  cases hr
  rfl

theorem lossless_peek : Lossless peek fun _ => [] := by
  refine ⟨fun {s r o} hr => ?_⟩
  rw [run_peek] at hr
  cases hr
  rfl

theorem lossless_endOfInput : Lossless endOfInput fun _ => [] := by
  refine ⟨fun {s r u} hr => ?_⟩
  obtain ⟨rfl, rfl⟩ := run_endOfInput_eq_some.mp hr
  rfl

theorem Lossless.attempt {p : Parser α} {text : α → Text} (h : Lossless p text) :
    Lossless (attempt p) text :=
  Keeps.attempt h

theorem Lossless.optional {p : Parser α} {text : α → Text} (h : Lossless p text) :
    Lossless (optional p) fun o => o.elim [] text := by
  refine ⟨fun {s r o} hr => ?_⟩
  obtain ⟨a, rfl, ha⟩ | ⟨rfl, rfl, -⟩ := run_optional_eq_some.mp hr
  · exact h.append_eq ha
  · rfl

/-- Behind an optional parser, each of the two ways on is looked at alone. -/
theorem Keeps.bind_optional {before : Text} {p : Parser α} {f : Option α → Parser β} {t : α → Text}
    {text : β → Text} [hn : Regular (f none)] [hs : ∀ a, Regular (f (some a))] (h : Lossless p t)
    (none : Keeps before (f none) text) (some : ∀ a, Keeps (before ++ t a) (f (some a)) text) :
    Keeps before (Parser.optional p >>= f) text := by
  have : ∀ o, Regular (f o) := Option.rec hn hs
  refine Keeps.bind h.optional fun o => ?_
  cases o with
  | none => simpa using none
  | some a => exact some a

theorem Lossless.firstOf {ps : List (Parser α)} {text : α → Text}
    (hr : ∀ p ∈ ps, Regular p) (h : ∀ p ∈ ps, Lossless p text) :
    Lossless (firstOf ps) text := by
  induction ps with
  | nil => exact Keeps.fail
  | cons p ps ih =>
    have hp : Lossless p text := h p List.mem_cons_self
    cases ps with
    | nil => exact hp.attempt
    | cons q qs =>
      have : Regular (Parser.firstOf (q :: qs)) :=
        regular_firstOf fun p hp => hr p (List.mem_cons_of_mem _ hp)
      refine ⟨fun {s r a} hs => ?_⟩
      cases hps : run p s with
      | some x =>
        obtain ⟨b, m⟩ := x
        rw [run_firstOf_of_some _ hps] at hs
        cases hs
        exact hp.append_eq hps
      | none =>
        rw [run_firstOf_of_none qs hps] at hs
        exact (ih (fun p hp => hr p (List.mem_cons_of_mem _ hp))
          (fun p hp => h p (List.mem_cons_of_mem _ hp))).append_eq hs

theorem Lossless.firstOf_pair {p q : Parser α} [hp : Regular p] [hq : Regular q] {text : α → Text}
    (h : Lossless p text) (h' : Lossless q text) : Lossless (Parser.firstOf [p, q]) text := by
  refine Lossless.firstOf ?_ ?_
  · simp only [List.forall_mem_cons, List.not_mem_nil, false_imp_iff, implies_true, and_true]
    exact ⟨hp, hq⟩
  · simp only [List.forall_mem_cons, List.not_mem_nil, false_imp_iff, implies_true, and_true]
    exact ⟨h, h'⟩

theorem Lossless.steps {p : Parser α} {text : α → Text} (h : Lossless p text) {s r : Text}
    {as : List α} (hs : Steps p s as r) : s = as.flatMap text ++ r := by
  induction hs with
  | nil => rfl
  | @cons s m r a as first _ _ ih =>
    have here : s = text a ++ m := h.append_eq first
    rw [here, ih, List.flatMap_cons, List.append_assoc]

theorem Lossless.many {p : Parser α} [Regular p] {text : α → Text} (h : Lossless p text) :
    Lossless (many p) fun as => as.flatMap text := by
  refine ⟨fun {s r as} hr => ?_⟩
  exact h.steps (run_many_eq_some.mp hr).1

theorem Lossless.many1 {p : Parser α} [Regular p] {text : α → Text} (h : Lossless p text) :
    Lossless (many1 p) fun as => as.flatMap text :=
  Keeps.bind h.attempt fun first => Keeps.bind h.many fun others =>
    Keeps.pure (by simp)

end Parser

/-! ## The text of trivia -/

@[simp] theorem renderAll_blankTokens (gap : Text) : Token.renderAll (blankTokens gap) = gap := by
  cases gap <;> simp [blankTokens]

@[simp] theorem renderAll_ofBlanks (gap : Text) :
    Token.renderAll ((Trivia.ofBlanks gap).map Trivia.toToken) = gap := by
  cases gap <;> simp [Trivia.ofBlanks, Trivia.toToken]

theorem renderAll_flatten (tokens : List (List Token)) :
    Token.renderAll tokens.flatten = tokens.flatMap Token.renderAll := by
  induction tokens with
  | nil => rfl
  | cons ts tss ih => simp [ih]

theorem renderAll_map_flatten {α : Type} (f : α → Token) (items : List (List α)) :
    Token.renderAll (items.flatten.map f) = items.flatMap fun as => Token.renderAll (as.map f) := by
  induction items with
  | nil => rfl
  | cons as ass ih =>
    rw [List.flatten_cons, List.map_append, Token.renderAll_append, ih, List.flatMap_cons]

theorem renderAll_map {α : Type} (f : α → Token) (items : List α) :
    Token.renderAll (items.map f) = items.flatMap fun a => (f a).render := by
  induction items with
  | nil => rfl
  | cons a as ih => simp [ih]

namespace Grammar

open DockerfileSyntax.Parser

/-- The text of a list of trivia. -/
def triviaText (trivia : List Trivia) : Text := Token.renderAll (trivia.map Trivia.toToken)

@[simp] theorem triviaText_append (s t : List Trivia) :
    triviaText (s ++ t) = triviaText s ++ triviaText t := by
  simp [triviaText]

@[simp] theorem triviaText_nil : triviaText [] = [] := rfl

@[simp] theorem triviaText_cons (t : Trivia) (ts : List Trivia) :
    triviaText (t :: ts) = t.toToken.render ++ triviaText ts := rfl

@[simp] theorem triviaText_ofBlanks (gap : Text) : triviaText (Trivia.ofBlanks gap) = gap :=
  renderAll_ofBlanks gap

theorem triviaText_flatten (items : List (List Trivia)) :
    triviaText items.flatten = items.flatMap triviaText :=
  renderAll_map_flatten Trivia.toToken items

theorem lossless_newLine : Lossless newLine id :=
  lossless_choose .newLine id [['\r', '\n'], ['\n']]

theorem lossless_blanks : Lossless blanks id :=
  lossless_takeWhile isInlineBlank

theorem lossless_optionalNewLine : Lossless optionalNewLine triviaText := by
  refine Keeps.bind_optional lossless_newLine ?_ fun text => ?_
  · exact Keeps.pure rfl
  · exact Keeps.pure (by simp [Trivia.toToken])

theorem lossless_whitespace : Lossless whitespace triviaText :=
  Keeps.bind lossless_blanks fun leading => Keeps.bind lossless_optionalNewLine fun ending =>
    Keeps.pure (by simp)

theorem lossless_continuation (escape : Char) :
    Lossless (continuation escape) fun c => c.toToken.render :=
  Keeps.attempt <| Keeps.bind (lossless_eat [escape]) fun _ => Keeps.bind lossless_blanks fun gap =>
    Keeps.bind lossless_newLine fun ending => Keeps.pure (by simp [Continuation.toToken])

theorem lossless_continuations (escape : Char) :
    Lossless (continuations escape) fun cs => Token.renderAll (cs.map Continuation.toToken) := by
  simp only [renderAll_map]
  exact (lossless_continuation escape).many

theorem lossless_escapedChar (escape : Char) : Lossless (escapedChar escape) id := by
  refine Keeps.bind (lossless_sees _) fun b => Keeps.ite Keeps.fail (Keeps.attempt ?_)
  refine Keeps.bind (lossless_satisfy ..) fun mark => Keeps.bind (lossless_satisfy ..) fun c => ?_
  exact Keeps.pure rfl

theorem lossless_charBelow (escape : Char) (what : Expectation) (holds : Char → Bool) :
    Lossless (charBelow escape what holds) Token.renderAll :=
  Keeps.attempt <| Keeps.bind (lossless_continuations escape) fun breaks =>
    Keeps.bind (lossless_satisfy ..) fun found => Keeps.pure (by simp)

theorem lossless_comment : Lossless comment id :=
  Keeps.bind lossless_peek fun _ => Keeps.ite (lossless_takeWhile _) Keeps.fail

theorem lossless_commentLine : Lossless commentLine triviaText :=
  Keeps.attempt <| Keeps.bind lossless_whitespace fun leading => Keeps.bind lossless_comment
    fun text => Keeps.bind lossless_optionalNewLine fun ending =>
      Keeps.pure (by simp [Trivia.toToken])

theorem lossless_trailingComments : Lossless trailingComments triviaText :=
  Keeps.bind lossless_commentLine.many fun lines => Keeps.pure (triviaText_flatten lines).symm

theorem lossless_blankLine : Lossless blankLine triviaText :=
  Keeps.attempt <| Keeps.bind lossless_blanks fun leading => Keeps.bind lossless_newLine
    fun ending => Keeps.pure (by simp [Trivia.toToken])

/-! ## References and content -/

theorem lossless_variableName : Lossless variableName id :=
  Keeps.bind (lossless_satisfy ..) fun _ => Keeps.bind (lossless_takeWhile ..) fun _ =>
    Keeps.pure rfl

theorem lossless_bareReference : Lossless bareReference fun r => r.toToken.render :=
  Keeps.attempt <| Keeps.bind (lossless_eat _) fun _ => Keeps.bind lossless_variableName
    fun name => Keeps.pure (by simp [Reference.toToken])

theorem lossless_modification {word : Parser (List Token)} [Regular word]
    (h : Lossless word Token.renderAll) : Lossless (modification word) Token.renderAll := by
  refine Keeps.bind_optional (lossless_choose ..) (Keeps.pure rfl) fun modifier => ?_
  refine Keeps.bind_optional h ?_ fun children => ?_
  · exact Keeps.pure (by simp [Quote.mark])
  · exact Keeps.pure (by simp [Quote.mark])

theorem lossless_bracedReference {word : Parser (List Token)} [Regular word]
    (h : Lossless word Token.renderAll) :
    Lossless (bracedReference word) fun r => r.toToken.render :=
  Keeps.attempt <| Keeps.bind (lossless_eat _) fun _ => Keeps.bind lossless_variableName
    fun name => Keeps.bind (lossless_modification h) fun modified =>
      Keeps.bind (lossless_eat _) fun _ => Keeps.pure (by simp [Reference.toToken])

theorem lossless_referenceWith {word : Parser (List Token)} [Regular word]
    (h : Lossless word Token.renderAll) :
    Lossless (referenceWith word) fun r => r.toToken.render :=
  lossless_bareReference.firstOf_pair (lossless_bracedReference h)

theorem lossless_literalChar (rules : ContentRules) :
    Lossless (literalChar rules) fun c => [c] := by
  refine ⟨fun {s r c} hr => ?_⟩
  rw [run_literalChar] at hr
  split at hr
  · exact (lossless_satisfy _ _).append_eq hr
  · cases hr

theorem lossless_characterPart (rules : ContentRules) :
    Lossless (characterPart rules) Token.render := by
  refine Keeps.bind_optional (lossless_literalChar rules) ?_ fun found => ?_
  · exact Keeps.bind (lossless_escapedChar _) fun escaped => Keeps.pure (by simp)
  · exact Keeps.pure (by simp)

theorem lossless_unitPart {word : Parser (List Token)} [Regular word]
    (h : Lossless word Token.renderAll) (rules : ContentRules) :
    Lossless (unitPart word rules) Token.render := by
  refine Keeps.bind_optional (lossless_referenceWith h) ?_ fun reference => ?_
  · simpa using lossless_characterPart rules
  · exact Keeps.pure (by simp)

theorem lossless_unit {word : Parser (List Token)} [Regular word]
    (h : Lossless word Token.renderAll) (rules : ContentRules) :
    Lossless (unit word rules) Token.renderAll := by
  rw [unit_eq]
  refine Keeps.attempt (Keeps.bind (lossless_continuations _) fun breaks => ?_)
  exact Keeps.bind (lossless_unitPart h rules) fun part => Keeps.pure (by simp)

theorem lossless_laterUnit {word : Parser (List Token)} [Regular word]
    (h : Lossless word Token.renderAll) (rules : ContentRules) :
    Lossless (laterUnit word rules) Token.renderAll := by
  rw [laterUnit_eq]
  refine Keeps.bind (t := id) ?_ fun gap => Keeps.bind (lossless_unit h rules) fun parts => ?_
  · exact Keeps.ite lossless_blanks (Keeps.pure rfl)
  · exact Keeps.pure (by simp)

theorem lossless_firstUnit {word : Parser (List Token)} [Regular word]
    (h : Lossless word Token.renderAll) (rules : ContentRules) :
    Lossless (firstUnit word rules) Token.renderAll :=
  Keeps.attempt <| Keeps.bind (lossless_sees _) fun _ => Keeps.ite Keeps.fail
    (lossless_unit h rules)

theorem lossless_contentWith {word : Parser (List Token)} [Regular word]
    (h : Lossless word Token.renderAll) (rules : ContentRules) :
    Lossless (contentWith word rules) Token.renderAll := by
  refine Keeps.bind (lossless_firstUnit h rules) fun first =>
    Keeps.bind (lossless_laterUnit h rules).many fun others => ?_
  exact Keeps.pure (by simp [renderAll_flatten])

theorem lossless_content (rules : ContentRules) : Lossless (content rules) Token.renderAll := by
  refine ⟨fun {s r ts} h => ?_⟩
  refine run_content_induction (P := fun _ s ts r => s = Token.renderAll ts ++ r) ?_ rules h
  intro rules word _ ih s ts r h
  exact (lossless_contentWith ⟨fun {s r ts} => ih s ts r⟩ rules).append_eq h

theorem lossless_reference (escape : Char) :
    Lossless (reference escape) fun r => r.toToken.render :=
  lossless_referenceWith (lossless_content _)

/-! ## Literals, identifiers and keywords -/

/-- What stands in quotes is kept, and so are the quotes. -/
theorem lossless_wrapped {α : Type} {inner : Parser α} {text : α → Text} [Regular inner]
    (h : Lossless inner text) (quote : Quote) :
    Lossless (do
        let _ ← satisfy .openingQuote (· == quote.char)
        let found ← inner
        let _ ← satisfy (.closingQuote quote) (· == quote.char)
        return found) fun found => quote.char :: text found ++ [quote.char] := by
  refine ⟨fun {s r found} hr => ?_⟩
  obtain ⟨c, m, hc, hr⟩ := run_bind_eq_some.mp hr
  obtain ⟨found', m', hf, hr⟩ := run_bind_eq_some.mp hr
  obtain ⟨d, m₂, hd, hr⟩ := run_bind_eq_some.mp hr
  obtain ⟨rfl, rfl⟩ := run_pure_eq_some.mp hr
  obtain ⟨rfl, isOpening⟩ := run_satisfy_eq_some.mp hc
  obtain ⟨rfl, isClosing⟩ := run_satisfy_eq_some.mp hd
  have inside : m = text found ++ d :: r := h.append_eq hf
  rw [inside, beq_iff_eq.mp isOpening, beq_iff_eq.mp isClosing]
  simp

/-- What stands in optional quotes is kept, and so are the quotes. -/
theorem lossless_inOptionalQuotes {α : Type} {inner : Option Quote → Parser α} {text : α → Text}
    [∀ quote, Regular (inner quote)] (h : ∀ quote, Lossless (inner quote) text) :
    Lossless (inOptionalQuotes inner) fun found =>
      Quote.mark found.1 ++ text found.2 ++ Quote.mark found.1 := by
  suffices ∀ quotes, Lossless (inOptionalQuotes.go inner quotes) fun found =>
      Quote.mark found.1 ++ text found.2 ++ Quote.mark found.1 from this Quote.all
  intro quotes
  induction quotes with
  | nil => exact Keeps.bind (h none) fun found => Keeps.pure (by simp [Quote.mark])
  | cons quote quotes ih =>
    have : Regular (inOptionalQuotes.go inner quotes) :=
      regular_inOptionalQuotes_go inferInstance quotes
    exact Keeps.bind_optional (lossless_wrapped (h _) quote) ih fun found =>
      Keeps.pure (by simp [Quote.mark])

theorem lossless_literalContent (escape : Char) (spacing : Spacing) (excluded : List Char)
    (quote : Option Quote) :
    Lossless (literalContent escape spacing excluded quote) Token.renderAll := by
  cases quote with
  | none => exact lossless_content _
  | some quote => exact Keeps.bind (lossless_content _).optional fun children => Keeps.pure (by
      cases children <;> simp)

theorem lossless_literal (escape : Char) (spacing : Spacing) (excluded : List Char) :
    Lossless (literal escape spacing excluded) Literal.render :=
  Keeps.bind (lossless_inOptionalQuotes fun quote => lossless_literalContent ..) fun found =>
    Keeps.pure (by simp [Literal.render, Literal.toToken])

theorem lossless_laterChar (rules : NameRules) (excluded : List Char) :
    Lossless (laterChar rules excluded) Token.renderAll := by
  refine (lossless_charBelow ..).firstOf_pair ?_
  exact Keeps.bind (lossless_escapedChar _) fun escaped => Keeps.pure (by simp)

theorem lossless_nameRun (rules : NameRules) (excluded : List Char) :
    Lossless (nameRun rules excluded) Token.renderAll :=
  Keeps.attempt <| Keeps.bind (lossless_satisfy ..) fun head =>
    Keeps.bind (lossless_laterChar rules excluded).many fun tail =>
      Keeps.pure (by simp [renderAll_flatten])

theorem lossless_identifier (rules : NameRules) : Lossless (identifier rules) Identifier.render :=
  Keeps.bind (lossless_inOptionalQuotes fun quote => lossless_nameRun ..) fun found =>
    Keeps.pure (by simp [Identifier.render, Identifier.toToken])

theorem lossless_identifierContent (rules : NameRules) (quote : Option Quote) :
    Lossless (identifierContent rules quote) Token.renderAll := by
  have part : Lossless (do let found ← reference rules.escape; return [found.toToken])
      Token.renderAll :=
    Keeps.bind (lossless_reference _) fun found => Keeps.pure (by simp)
  exact Keeps.bind (part.firstOf_pair (lossless_nameRun ..)).many1 fun parts =>
    Keeps.pure (by simp [renderAll_flatten])

theorem lossless_identifierAggregate (rules : NameRules) :
    Lossless (identifierAggregate rules) Identifier.render :=
  Keeps.bind (lossless_inOptionalQuotes fun quote => lossless_identifierContent ..) fun found =>
    Keeps.pure (by simp [Identifier.render, Identifier.toToken])

theorem lossless_keywordTail (escape : Char) (what : Expectation) (letters : Text) :
    Lossless (keywordTail escape what letters) Token.renderAll := by
  induction letters with
  | nil => exact Keeps.pure rfl
  | cons letter letters ih =>
    exact Keeps.bind (lossless_charBelow ..) fun found => Keeps.bind ih fun others =>
      Keeps.pure (by simp)

theorem lossless_keyword (escape : Char) (name : Text) :
    Lossless (keyword escape name) Keyword.render := by
  cases name with
  | nil => exact Keeps.attempt (Keeps.pure (by simp [Keyword.render, Keyword.toToken]))
  | cons letter letters =>
    exact Keeps.attempt <| Keeps.bind (lossless_satisfy ..) fun head =>
      Keeps.bind (lossless_keywordTail ..) fun tail =>
        Keeps.pure (by simp [Keyword.render, Keyword.toToken])

/-! ## Instructions, owners and pairs -/

theorem lossless_blankRun : Lossless blankRun triviaText :=
  Keeps.bind lossless_blanks fun found => Keeps.pure (by simp)

theorem lossless_optionalContinuation (escape : Char) :
    Lossless (optionalContinuation escape) triviaText := by
  refine Keeps.bind_optional (lossless_continuation escape) (Keeps.pure rfl) fun found => ?_
  exact Keeps.pure (by simp [Trivia.toToken])

theorem keywordEnd_eq (escape : Char) :
    keywordEnd escape = (do
      let found ← peek
      if found.all (fun c => isInlineBlank c || isLineEnd c || c == escape) then return ()
      else fail .keywordEnd) := by
  unfold keywordEnd
  refine bind_congr fun o => ?_
  cases o <;> rfl

theorem lossless_keywordEnd (escape : Char) : Lossless (keywordEnd escape) fun _ => [] := by
  rw [keywordEnd_eq]
  exact Keeps.bind lossless_peek fun found => Keeps.ite (Keeps.pure rfl) Keeps.fail

theorem lossless_interludes : Lossless interludes triviaText := by
  refine Keeps.bind (lossless_commentLine.firstOf_pair lossless_blankLine).many fun lines => ?_
  exact Keeps.pure (triviaText_flatten lines).symm

theorem lossless_heading (escape : Char) (name : Text) :
    Lossless (heading escape name) fun h => Token.renderAll h.tokens := by
  refine Keeps.bind lossless_blankRun fun lead => Keeps.bind (lossless_keyword ..) fun found => ?_
  refine Keeps.bind (lossless_keywordEnd _) fun _ => Keeps.bind lossless_blankRun fun gap => ?_
  refine Keeps.bind_optional (lossless_continuation _) ?_ fun break_ => ?_
  · exact Keeps.pure (by simp [Heading.tokens, triviaText, Keyword.render])
  · exact Keeps.bind lossless_interludes fun below =>
      Keeps.pure (by simp [Heading.tokens, triviaText, Keyword.render, Trivia.toToken])

theorem lossless_ending (escape : Char) : Lossless (ending escape) triviaText :=
  Keeps.bind lossless_blankRun fun gap => Keeps.bind (lossless_optionalContinuation _)
    fun break_ => Keeps.bind lossless_optionalNewLine fun ending =>
      Keeps.bind lossless_trailingComments fun comments => Keeps.pure (by simp)

theorem lossless_framed {α : Type} (escape : Char) {arguments : Parser α} [Regular arguments]
    {text : α → Text} (h : Lossless arguments text) :
    Lossless (framed escape arguments) fun f =>
      triviaText f.before ++ text f.content ++ triviaText f.after := by
  rw [framed_eq]
  exact Keeps.bind lossless_blankRun fun before => Keeps.bind h fun content =>
    Keeps.bind (lossless_ending escape) fun after => Keeps.pure (by simp)

/-- The text of a value with its equals sign; nothing without a value. -/
def assignedText : Option Literal → Text
  | none => []
  | some value => '=' :: value.render

theorem lossless_assignment (escape : Char) : Lossless (assignment escape) assignedText := by
  refine Keeps.bind_optional (lossless_eat _) (Keeps.pure rfl) fun _ => ?_
  refine Keeps.bind (lossless_literal ..).optional fun value => Keeps.pure ?_
  cases value <;> simp [assignedText, Literal.render, Literal.empty, Literal.toToken, Quote.mark]

theorem lossless_argBody (escape : Char) :
    Lossless (argBody escape) fun body => body.1.render ++ assignedText body.2 := by
  rw [argBody_eq]
  exact Keeps.bind (lossless_identifier _) fun name =>
    Keeps.bind (lossless_assignment escape) fun value => Keeps.pure (by simp)

end Grammar

namespace Arg

open Grammar

/-- The text behind the name of a declaration. -/
def tail (a : Arg) : Text := assignedText a.value ++ triviaText a.trail

theorem render_eq (a : Arg) :
    a.render = Token.renderAll a.heading.tokens ++ (a.name.render ++ a.tail) := by
  obtain ⟨heading, name, value, trail, escape⟩ := a
  cases value <;>
    simp [Arg.render, Arg.tokens, Arg.toInstruction, Instruction.tokens, Arg.bodyTokens, tail,
      assignedText, triviaText, Identifier.render, Literal.render]

end Arg

namespace Grammar

open DockerfileSyntax.Parser

theorem lossless_arg (escape : Char) : Lossless (arg escape) Arg.render := by
  refine Keeps.bind (lossless_heading ..) fun heading => ?_
  refine Keeps.bind (lossless_framed escape (lossless_argBody escape)) fun body => Keeps.pure ?_
  rw [Arg.render_eq]
  simp [Heading.tokens, Arg.tail, triviaText]

theorem lossless_ownerGroup (escape : Char) :
    Lossless (ownerGroup escape) fun found =>
      Token.renderAll (found.1.map Continuation.toToken ++ Owner.groupTokens (some found.2)) :=
  Keeps.bind (lossless_continuations _) fun before => Keeps.bind (lossless_eat _) fun _ =>
    Keeps.bind (lossless_continuations _) fun after => Keeps.bind (lossless_literal ..)
      fun group => Keeps.pure (by simp [Owner.groupTokens, Literal.render])

theorem lossless_owner (escape : Char) : Lossless (owner escape) Owner.render := by
  refine Keeps.bind (lossless_literal ..) fun user => ?_
  refine Keeps.bind_optional (lossless_ownerGroup escape) ?_ fun found => ?_
  · exact Keeps.pure (by simp [Owner.render, Owner.tokens, Owner.groupTokens, Literal.render])
  · exact Keeps.pure (by simp [Owner.render, Owner.tokens, Literal.render])

theorem lossless_separator : Lossless separator fun between => between.toToken.render := by
  have equals : Lossless (do eat ['=']; return Separator.equals)
      fun between => between.toToken.render :=
    Keeps.bind (lossless_eat _) fun _ => Keeps.pure rfl
  have colon : Lossless (do eat [':']; return Separator.colon)
      fun between => between.toToken.render :=
    Keeps.bind (lossless_eat _) fun _ => Keeps.pure rfl
  refine Keeps.bind_optional (equals.firstOf_pair colon) ?_ fun found => ?_
  · exact Keeps.bind lossless_blanks fun gap => Keeps.ite Keeps.fail (Keeps.pure rfl)
  · exact Keeps.pure (by simp)

theorem lossless_keyValue {K V : ValueKind} (escape : Char) (isFlag : Bool)
    {key : Parser K.Carrier} {value : Parser V.Carrier} [Regular key] [Regular value]
    (hk : Lossless key fun k => (K.toToken k).render)
    (hv : Lossless value fun v => (V.toToken v).render) :
    Lossless (keyValue escape isFlag key value) KeyValue.render := by
  have assigned : Lossless (do let between ← separator; let found ← value; return (between, found))
      fun pair => pair.1.toToken.render ++ (V.toToken pair.2).render :=
    Keeps.bind lossless_separator fun between => Keeps.bind hv fun found => Keeps.pure rfl
  have pair (mark : Text) (hm : mark = if isFlag then flagMark else []) :
      Keeps mark (do
        let keyToken ← key
        let assigned ← optional do
          let between ← separator
          let found ← value
          return (between, found)
        return ({ isFlag, keyToken, assigned, escape } : KeyValue K V)) KeyValue.render := by
    refine Keeps.bind hk fun keyToken => Keeps.bind assigned.optional fun found => Keeps.pure ?_
    cases found <;> cases isFlag <;> simp [hm, KeyValue.render, KeyValue.tokens]
  cases isFlag with
  | true => exact Keeps.bind (lossless_eat _) fun _ => pair flagMark rfl
  | false => exact pair [] rfl

end Grammar

end DockerfileSyntax
