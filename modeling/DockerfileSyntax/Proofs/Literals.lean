import DockerfileSyntax.Proofs.Content.Values

/-!
# Literals

A text reads as a literal if and only if the literal is well formed and renders to the text, and no
text is the rendering of two well-formed literals. The half of it that holds within a longer text is
`run_literal_of_wellFormed`.
-/

namespace DockerfileSyntax

open Grammar DockerfileSyntax.Parser

/-! ## Optional quotes -/

section Quotes

variable {α : Type} {inner : Option Quote → Parser α} [∀ quote, Regular (inner quote)] {s r : Text}

/-- One quote, what the parser for it reads, and the quote again. -/
theorem run_wrapped_eq_some {quote : Quote} {found : α} :
    run (do
        let _ ← satisfy .openingQuote (· == quote.char)
        let found ← inner (some quote)
        let _ ← satisfy (.closingQuote quote) (· == quote.char)
        return found) s = some (found, r) ↔
      ∃ t, s = quote.char :: t ∧ run (inner (some quote)) t = some (found, quote.char :: r) := by
  constructor
  · intro h
    obtain ⟨c, t, hc, h⟩ := run_bind_eq_some.mp h
    obtain ⟨found, m, hf, h⟩ := run_bind_eq_some.mp h
    obtain ⟨d, m', hd, h⟩ := run_bind_eq_some.mp h
    obtain ⟨rfl, rfl⟩ := run_pure_eq_some.mp h
    obtain ⟨rfl, isOpening⟩ := run_satisfy_eq_some.mp hc
    obtain ⟨rfl, isClosing⟩ := run_satisfy_eq_some.mp hd
    rw [beq_iff_eq.mp isClosing] at hf
    exact ⟨t, by rw [beq_iff_eq.mp isOpening], hf⟩
  · rintro ⟨t, rfl, hf⟩
    refine run_bind_eq_some.mpr ⟨_, t, run_satisfy_eq_some.mpr ⟨rfl, by simp⟩, ?_⟩
    refine run_bind_eq_some.mpr ⟨found, _, hf, ?_⟩
    exact run_bind_eq_some.mpr ⟨_, r, run_satisfy_eq_some.mpr ⟨rfl, by simp⟩, rfl⟩

theorem run_inOptionalQuotes_go_cons {quote : Quote} {quotes : List Quote} {x : Option Quote × α} :
    run (inOptionalQuotes.go inner (quote :: quotes)) s = some (x, r) ↔
      (∃ found t, s = quote.char :: t ∧ run (inner (some quote)) t = some (found, quote.char :: r) ∧
        x = (some quote, found)) ∨
      ((¬ ∃ found t r, s = quote.char :: t ∧
          run (inner (some quote)) t = some (found, quote.char :: r)) ∧
        run (inOptionalQuotes.go inner quotes) s = some (x, r)) := by
  have : Regular (inOptionalQuotes.go inner quotes) :=
    regular_inOptionalQuotes_go inferInstance quotes
  rw [inOptionalQuotes.go, run_optional_bind_eq_some]
  constructor
  · rintro (⟨found, m, hf, h⟩ | ⟨hf, h⟩)
    · obtain ⟨rfl, rfl⟩ := run_pure_eq_some.mp h
      obtain ⟨t, hs, hf⟩ := run_wrapped_eq_some.mp hf
      exact .inl ⟨found, t, hs, hf, rfl⟩
    · refine .inr ⟨?_, h⟩
      rintro ⟨found, t, r, hs, hr⟩
      rw [run_wrapped_eq_some.mpr ⟨t, hs, hr⟩] at hf
      cases hf
  · rintro (⟨found, t, hs, hf, rfl⟩ | ⟨no, h⟩)
    · exact .inl ⟨found, r, run_wrapped_eq_some.mpr ⟨t, hs, hf⟩, rfl⟩
    · refine .inr ⟨?_, h⟩
      rw [Option.eq_none_iff_forall_ne_some]
      rintro ⟨found, m⟩ hf
      obtain ⟨t, hs, hf⟩ := run_wrapped_eq_some.mp hf
      exact no ⟨found, t, m, hs, hf⟩

/-- What stands in optional quotes has been read by the parser for these quotes, and the text begins
with them. -/
theorem run_inOptionalQuotes_sound {quote : Option Quote} {found : α}
    (h : run (inOptionalQuotes inner) s = some ((quote, found), r)) :
    ∃ t, run (inner quote) t = some (found, Quote.mark quote ++ r) ∧
      s = Quote.mark quote ++ t := by
  rw [inOptionalQuotes, Quote.all] at h
  rcases run_inOptionalQuotes_go_cons.mp h with ⟨found, t, hs, hf, eq⟩ | ⟨-, h⟩
  · cases eq
    exact ⟨t, hf, hs⟩
  rcases run_inOptionalQuotes_go_cons.mp h with ⟨found, t, hs, hf, eq⟩ | ⟨-, h⟩
  · cases eq
    exact ⟨t, hf, hs⟩
  obtain ⟨found, m, hf, h⟩ := run_bind_eq_some.mp h
  obtain ⟨eq, rfl⟩ := run_pure_eq_some.mp h
  cases eq
  exact ⟨s, hf, rfl⟩

/-- What the parser for these quotes reads up to the closing quote is read behind the opening
one. -/
theorem run_inOptionalQuotes_quoted {quote : Quote} {found : α}
    (h : run (inner (some quote)) s = some (found, quote.char :: r)) :
    run (inOptionalQuotes inner) (quote.char :: s) = some ((some quote, found), r) := by
  rw [inOptionalQuotes, Quote.all, run_inOptionalQuotes_go_cons]
  cases quote with
  | single => exact .inl ⟨found, s, rfl, h, rfl⟩
  | double =>
    -- the single quote is tried first, and the text does not begin with it
    refine .inr ⟨?_, ?_⟩
    · rintro ⟨found, t, r, hs, -⟩
      exact absurd (List.cons.inj hs).1 (by decide)
    · exact run_inOptionalQuotes_go_cons.mpr (.inl ⟨found, s, rfl, h, rfl⟩)

/-- Where no quote stands, the parser without quotes reads. -/
theorem run_inOptionalQuotes_bare {found : α}
    (notQuote : ∀ quote : Quote, s.head? ≠ some quote.char)
    (h : run (inner none) s = some (found, r)) :
    run (inOptionalQuotes inner) s = some ((none, found), r) := by
  have no (quote : Quote) : ¬ ∃ found t r, s = quote.char :: t ∧
      run (inner (some quote)) t = some (found, quote.char :: r) := by
    rintro ⟨found, t, r, rfl, -⟩
    exact notQuote quote rfl
  rw [inOptionalQuotes, Quote.all, run_inOptionalQuotes_go_cons]
  refine .inr ⟨no .single, run_inOptionalQuotes_go_cons.mpr (.inr ⟨no .double, ?_⟩)⟩
  exact run_bind_eq_some.mpr ⟨found, r, h, rfl⟩

end Quotes

/-! ## Reading literals -/

/-- The text of a literal is its content between its quotes. -/
theorem Literal.render_eq (quote : Option Quote) (children : List Token) :
    Literal.render ⟨quote, children⟩ =
      Quote.mark quote ++ Token.renderAll children ++ Quote.mark quote := by
  simp [Literal.render, Literal.toToken]

theorem run_literalContent_sound {escape : Char} {spacing : Spacing} (hs : spacing ≠ .separates)
    {excluded : List Char} {quote : Option Quote} {s r : Text} {ts : List Token}
    (h : run (literalContent escape spacing excluded quote) s = some (ts, r)) :
    Literal.WellFormed escape spacing excluded ⟨quote, ts⟩ := by
  cases quote with
  | none => exact run_content_sound hs h
  | some quote =>
    obtain ⟨o, m, ho, h⟩ := run_bind_eq_some.mp h
    obtain ⟨rfl, rfl⟩ := run_pure_eq_some.mp h
    obtain ⟨children, rfl, hc⟩ | ⟨rfl, -, -⟩ := run_optional_eq_some.mp ho
    · exact (run_content_sound (by simp [ContentRules.quoted]) hc).1
    · exact Suffix.nil.word (by simp)

/-- What is read as a literal is well formed. -/
theorem run_literal_sound {escape : Char} {spacing : Spacing} (hs : spacing ≠ .separates)
    {excluded : List Char} {s r : Text} {l : Literal}
    (h : run (literal escape spacing excluded) s = some (l, r)) :
    l.WellFormed escape spacing excluded := by
  obtain ⟨⟨quote, children⟩, m, hq, h⟩ := run_bind_eq_some.mp h
  obtain ⟨rfl, rfl⟩ := run_pure_eq_some.mp h
  obtain ⟨t, hc, -⟩ := run_inOptionalQuotes_sound hq
  exact run_literalContent_sound hs hc

/-- The first character of content: it begins an escape or a reference, or it stands for itself. -/
theorem Word.exists_head {rules : ContentRules} {ts : List Token} (h : Word rules ts)
    (nonempty : ts ≠ []) : ∃ c m, Token.renderAll ts = c :: m ∧
      (c = rules.escape ∨ c = '$' ∨
        c ∉ rules.excluded ∧ (isInlineBlank c = true → rules.spacing = .content)) := by
  obtain ⟨t, ts, rfl⟩ := List.exists_cons_of_ne_nil nonempty
  have isPart := h.parts t List.mem_cons_self
  rcases isPart.shape with ⟨text, rfl, nonempty, spells⟩ | ⟨k, rfl, -⟩ | ⟨braced, children, rfl⟩
  · cases spells with
    | nil => exact absurd rfl nonempty
    | pair _ _ => exact ⟨_, _, rfl, .inl rfl⟩
    | plain _ _ allowed blank _ _ => exact ⟨_, _, rfl, .inr (.inr ⟨allowed, blank⟩)⟩
  · have := h.joined.first k.toToken rfl
    cases this
  · obtain ⟨m, hm⟩ := render_reference_cons braced children
    rw [Token.renderAll, hm]
    exact ⟨_, _, rfl, .inr (.inl rfl)⟩

/-- Content begins with no character that ends it. -/
theorem Word.head_ne_of_excluded {rules : ContentRules} {ts : List Token} (h : Word rules ts)
    (nonempty : ts ≠ []) {c : Char} (excluded : c ∈ rules.excluded) (notEscape : c ≠ rules.escape)
    (notDollar : c ≠ '$') (r : Text) : (Token.renderAll ts ++ r).head? ≠ some c := by
  obtain ⟨d, m, text, first⟩ := h.exists_head nonempty
  rw [text]
  intro hc
  obtain rfl : d = c := Option.some.inj hc
  rcases first with rfl | rfl | ⟨allowed, -⟩
  · exact notEscape rfl
  · exact notDollar rfl
  · exact allowed excluded

theorem quote_mem_all (quote : Quote) : quote.char ∈ Quote.all.map Quote.char := by
  cases quote <;> decide

theorem Quote.char_ne_dollar (quote : Quote) : quote.char ≠ '$' := by
  cases quote <;> decide

/-- A literal without quotes does not begin with one. -/
theorem Word.head_ne_quote {escape : Char} (he : IsEscape escape) {spacing : Spacing}
    {excluded : List Char} {ts : List Token} (h : Word (.bare escape spacing excluded) ts)
    (nonempty : ts ≠ []) (r : Text) (quote : Quote) :
    (Token.renderAll ts ++ r).head? ≠ some quote.char :=
  h.head_ne_of_excluded nonempty (List.mem_append_right excluded (quote_mem_all quote))
    (he.ne_quote quote).symm quote.char_ne_dollar r

/-- Where a literal may end: anywhere behind a closing quote, and without quotes where no more
content follows. -/
def Literal.EndsBefore (escape : Char) (spacing : Spacing) (excluded : List Char) (l : Literal)
    (r : Text) : Prop :=
  l.quote = none → Boundary l.children r ∧
    run (unit (content (.word escape)) (.bare escape spacing excluded)) r = none

/-- Every literal may end at the end of the text. -/
theorem Literal.endsBefore_nil (l : Literal) {escape : Char} {spacing : Spacing}
    {excluded : List Char} : l.EndsBefore escape spacing excluded [] :=
  fun _ => ⟨boundary_nil l.children, run_unit_nil⟩

theorem run_literalContent_quoted {escape : Char} (he : IsEscape escape) (spacing : Spacing)
    (excluded : List Char) {quote : Quote} {ts : List Token} (h : Word (.quoted escape quote) ts)
    (r : Text) :
    run (literalContent escape spacing excluded (some quote))
      (Token.renderAll ts ++ quote.char :: r) = some (ts, quote.char :: r) := by
  have stop : run (unit (content (.word escape)) (.quoted escape quote)) (quote.char :: r) = none :=
    run_unit_of_excluded (by simp [ContentRules.quoted]) (he.ne_quote quote).symm
      quote.char_ne_dollar
  rw [literalContent]
  by_cases nonempty : ts = []
  · subst nonempty
    have none : run (content (.quoted escape quote)) (quote.char :: r) = none :=
      run_content_of_none stop
    exact run_bind_eq_some.mpr ⟨_, _, run_optional_of_none none, rfl⟩
  · have he' : IsEscape (ContentRules.quoted escape quote).escape := he
    have boundary : Boundary ts (quote.char :: r) := by
      cases quote <;> exact boundary_cons (by decide) (by decide) (by decide) (by decide) ts r
    have read := run_content_of_word he' (by simp [ContentRules.quoted]) h nonempty
      (h.readsReferences he') boundary stop
    exact run_bind_eq_some.mpr ⟨_, _, run_optional_of_some read, rfl⟩

/-- A well-formed literal is read wherever it may end. -/
theorem run_literal_of_wellFormed {escape : Char} (he : IsEscape escape) {spacing : Spacing}
    (hs : spacing ≠ .separates) {excluded : List Char} {l : Literal}
    (h : l.WellFormed escape spacing excluded) {r : Text}
    (hr : l.EndsBefore escape spacing excluded r) :
    run (literal escape spacing excluded) (l.render ++ r) = some (l, r) := by
  obtain ⟨quote, ts⟩ := l
  refine run_bind_eq_some.mpr ⟨(quote, ts), r, ?_, rfl⟩
  cases quote with
  | some quote =>
    have read := run_inOptionalQuotes_quoted (run_literalContent_quoted he spacing excluded h r)
    simpa [Literal.render_eq, Quote.mark] using read
  | none =>
    obtain ⟨isWord, nonempty⟩ := h
    obtain ⟨boundary, stop⟩ := hr rfl
    have he' : IsEscape (ContentRules.bare escape spacing excluded).escape := he
    have read := run_content_of_word he' hs isWord nonempty (isWord.readsReferences he') boundary
      stop
    have text : Literal.render ⟨none, ts⟩ = Token.renderAll ts := by
      simp [Literal.render_eq, Quote.mark]
    rw [text]
    exact run_inOptionalQuotes_bare (isWord.head_ne_quote he nonempty r) read

theorem complete_literal_eq_ok {escape : Char} (he : IsEscape escape) {spacing : Spacing}
    (hs : spacing ≠ .separates) {excluded : List Char} {text : Text} {l : Literal} :
    complete (literal escape spacing excluded) text = .ok l ↔
      l.render = text ∧ l.WellFormed escape spacing excluded := by
  rw [complete_eq_ok]
  constructor
  · intro h
    have whole : text = l.render ++ [] := (lossless_literal ..).append_eq h
    exact ⟨by rw [whole, List.append_nil], run_literal_sound hs h⟩
  · rintro ⟨rfl, wellFormed⟩
    have read := run_literal_of_wellFormed he hs wellFormed l.endsBefore_nil
    rwa [List.append_nil] at read

/-- The grammar of literals is exact: a text reads as a literal if and only if the literal is well
formed and renders to the text. And it is unambiguous: a text has one such literal at most. -/
theorem complete_literal_iff (escape : Char) (he : IsEscape escape) (spacing : Spacing)
    (hs : spacing = .ends ∨ spacing = .content) (excluded : List Char) :
    (∀ (text : Text) (l : Literal), complete (literal escape spacing excluded) text = .ok l ↔
      l.render = text ∧ l.WellFormed escape spacing excluded) ∧
    ∀ l l' : Literal, l.WellFormed escape spacing excluded →
      l'.WellFormed escape spacing excluded → l.render = l'.render → l = l' := by
  have notSeparates : spacing ≠ .separates := by
    rcases hs with rfl | rfl <;> decide
  refine ⟨fun text l => complete_literal_eq_ok he notSeparates, fun l l' h h' same => ?_⟩
  -- both are what the text of the second one reads as
  have first := (complete_literal_eq_ok he notSeparates).mpr ⟨same, h⟩
  have second := (complete_literal_eq_ok he notSeparates).mpr ⟨rfl, h'⟩
  exact Except.ok.inj (first.symm.trans second)

/-- The text `a$b` outside quotes is one string and one reference, and nothing else. -/
theorem complete_literal_iff_sample :
    complete (literal '`' .ends [':']) ['a', '$', 'b'] =
      .ok ⟨none, [.string ['a'], .reference false [.string ['b']]]⟩ ∧
    ∀ l : Literal, l.WellFormed '`' .ends [':'] → l.render = ['a', '$', 'b'] →
      l = ⟨none, [.string ['a'], .reference false [.string ['b']]]⟩ := by
  obtain ⟨exactly, unambiguous⟩ := complete_literal_iff '`' (.inr rfl) .ends (.inl rfl) [':']
  have spells : Spells (.bare '`' .ends [':']) ['a'] :=
    .plain (by decide) (by decide) (by decide) (fun h => absurd h (by decide)) rfl .nil
  have wellFormed : Literal.WellFormed '`' .ends [':']
      ⟨none, [.string ['a'], .reference false [.string ['b']]]⟩ := by
    refine ⟨⟨?_, ?_, ?_, ?_⟩, by decide⟩
    · exact List.forall_mem_cons.mpr ⟨.string (by decide) spells,
        List.forall_mem_cons.mpr ⟨.bare (by decide), by simp⟩⟩
    · simp [mayPrecede]
    · simp [Token.isBreak]
    · simp [Token.isBreak]
  exact ⟨(exactly _ _).mpr ⟨rfl, wellFormed⟩, fun l h same => unambiguous _ _ h wellFormed same⟩

/-! ## Quotes and values -/

namespace Literal.WellFormed

variable {e : Char} {spacing : Spacing} {excluded : List Char} {l : Literal}

theorem parts (h : l.WellFormed e spacing excluded) :
    ∃ rules : ContentRules, rules.escape = e ∧ ∀ t ∈ l.children, Part rules t := by
  obtain ⟨quote, children⟩ := l
  cases quote with
  | some quote => exact ⟨_, rfl, Word.parts h⟩
  | none => exact ⟨_, rfl, h.1.parts⟩

/-- The quote of a well-formed literal is seen at the first character. -/
theorem quote_iff (he : IsEscape e) (h : l.WellFormed e spacing excluded) (quote : Quote) :
    l.quote = some quote ↔ l.render.head? = some quote.char := by
  obtain ⟨own, children⟩ := l
  rw [render_eq]
  cases own with
  | some own => cases own <;> cases quote <;> simp [Quote.mark, Quote.char]
  | none =>
    have notQuote := h.1.head_ne_quote he h.2 [] quote
    simpa [Quote.mark] using notQuote

/-- No well-formed literal begins with a line continuation. -/
theorem unbroken (he : IsEscape e) (h : l.WellFormed e spacing excluded) :
    run (continuation e) l.render = none := by
  obtain ⟨quote, children⟩ := l
  cases quote with
  | some quote =>
    refine run_continuation_of_head_ne ?_
    rw [render_eq]
    exact fun hc => he.ne_quote quote (Option.some.inj hc).symm
  | none =>
    obtain ⟨isWord, nonempty⟩ := h
    have he' : IsEscape (ContentRules.bare e spacing excluded).escape := he
    have refs : ReadsReferences (content (.word e)) children := isWord.readsReferences he'
    obtain ⟨-, -, -, stop⟩ := isWord.steps he' refs (boundary_nil children)
    have unbroken : run (continuation e) (Token.renderAll children ++ []) = none := stop nonempty
    simpa [render_eq, Quote.mark] using unbroken

/-- No well-formed literal begins with white space, unless that is content. -/
theorem head_notBlank (he : IsEscape e) (h : l.WellFormed e spacing excluded)
    (hs : spacing ≠ .content) {c : Char} (hc : l.render.head? = some c) :
    isInlineBlank c = false := by
  obtain ⟨quote, children⟩ := l
  rw [render_eq] at hc
  cases quote with
  | some quote =>
    rw [← Option.some.inj hc]
    cases quote <;> decide
  | none =>
    obtain ⟨isWord, nonempty⟩ := h
    obtain ⟨d, m, text, first⟩ := isWord.exists_head nonempty
    simp only [Quote.mark, List.nil_append, List.append_nil] at hc
    rw [text] at hc
    obtain rfl : d = c := Option.some.inj hc
    rcases first with rfl | rfl | ⟨-, blank⟩
    · exact he.not_isInlineBlank
    · decide
    · cases notBlank : isInlineBlank d with
      | false => rfl
      | true => exact absurd (blank notBlank) hs

/-- What reads as a text in quotes is the literal in these quotes. -/
theorem eq_of_render_quoted (he : IsEscape e) (h : l.WellFormed e spacing excluded)
    {quote : Quote} {text : Text} (same : l.render = quote.char :: (text ++ [quote.char])) :
    l.quote = some quote ∧ Token.renderAll l.children = text := by
  have own : l.quote = some quote := (h.quote_iff he quote).mpr (by rw [same]; rfl)
  refine ⟨own, ?_⟩
  obtain ⟨_, children⟩ := l
  obtain rfl := own
  rw [render_eq] at same
  simpa [Quote.mark] using same

theorem value_eq_iff (he : IsEscape e) (h : l.WellFormed e spacing excluded) :
    l.value = Token.renderAll l.children ↔ '\n' ∉ Token.renderAll l.children := by
  obtain ⟨quote, children⟩ := l
  show Token.valueAll children = Token.renderAll children ↔ _
  cases quote with
  | some quote => exact Word.value_eq_iff h he
  | none => exact Word.value_eq_iff h.1 he

theorem holdsBreak (he : IsEscape e) (h : l.WellFormed e spacing excluded)
    (newLine : '\n' ∈ Token.renderAll l.children) :
    HoldsBreak e (Token.renderAll l.children) := by
  obtain ⟨quote, children⟩ := l
  cases quote with
  | some quote => exact Word.holdsBreak h he newLine
  | none => exact Word.holdsBreak h.1 he newLine

end Literal.WellFormed

theorem Literal.render_of_bare {l : Literal} (bare : l.quote = none) :
    l.render = Token.renderAll l.children := by
  obtain ⟨quote, children⟩ := l
  obtain rfl : quote = none := bare
  simp [render_eq, Quote.mark]

/-- A literal whose text is no longer than its value has no quotes. -/
theorem Literal.quote_eq_none {l : Literal} (short : l.render.length ≤ l.value.length) :
    l.quote = none := by
  obtain ⟨quote, children⟩ := l
  cases quote with
  | none => rfl
  | some quote =>
    have content : (Literal.value ⟨some quote, children⟩).length ≤
      (Token.renderAll children).length := Token.valueAll_length_le children
    rw [Literal.render_eq] at short
    simp only [Quote.mark, List.length_append, List.length_singleton] at short
    omega

end DockerfileSyntax
