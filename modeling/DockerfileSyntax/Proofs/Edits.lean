import DockerfileSyntax.Proofs.Literals
import DockerfileSyntax.Proofs.Lossless

/-!
# Edits of literals, and runs of edits

A literal takes a new value if the value reads as its content; `Literal.readContent_eq_ok` says
which values those are, and `Literal.setContent_cases` is all that setting one can do. A value reads
as content just as it reads as a literal between quotes: `content_and_literal_read_alike`. What
every edit keeps, whether it succeeds or fails, is kept by a run of them: `Edit.afterAll_induction`.
A value from which something is created is first put into a text, `canonicalText`, which is the
value itself or the value in double quotes.
-/

namespace DockerfileSyntax

open Grammar DockerfileSyntax.Parser

theorem isEscape_default : IsEscape defaultEscape := .inl rfl

/-! ## Runs of edits -/

namespace Edit

variable {σ : Type}

/-- The value after these edits, one after the other. Each of them may fail. -/
def afterAll (edits : List (Edit σ Unit)) (s : σ) : σ :=
  edits.foldl (fun s e => (apply e s).result) s

theorem afterAll_induction {P : σ → Prop} {edits : List (Edit σ Unit)}
    (step : ∀ e ∈ edits, ∀ s, P s → P (apply e s).result) {s : σ} (h : P s) :
    P (afterAll edits s) := by
  induction edits generalizing s with
  | nil => exact h
  | cons e edits ih =>
    obtain ⟨first, others⟩ := List.forall_mem_cons.mp step
    exact ih others (first s h)

/-- An edit that ends without an error on a value that is computed, with what is computed of its
result. -/
theorem exists_accepted {α β : Type} {x : Except Error α} {a : α} (e : Edit σ Unit) (f : α → σ)
    {g : σ → β} {b : β} (h : x = .ok a)
    (computed : x.toOption.map (fun a =>
      ((apply e (f a)).error.isNone, g (apply e (f a)).result)) = some (true, b)) :
    ∃ s, apply e (f a) = ⟨s, none⟩ ∧ g s = b := by
  obtain ⟨a', read, computed⟩ := exists_of_computed computed
  obtain rfl := Except.ok.inj (h.symm.trans read)
  obtain ⟨noError, result⟩ := Prod.mk.inj computed
  have ended := Option.isNone_iff_eq_none.mp noError
  exact ⟨_, by rw [← ended], result⟩

end Edit

/-! ## Reading the content of a literal -/

theorem Word.eq_nil_of_render {rules : ContentRules} {ts : List Token} (h : Word rules ts)
    (noText : Token.renderAll ts = []) : ts = [] := by
  cases ts with
  | nil => rfl
  | cons t ts =>
    have first : t.render = [] := (List.append_eq_nil_iff.mp noText).1
    exact absurd first (h.parts t List.mem_cons_self).render_ne_nil

namespace Literal

variable {field : EditField} {e : Char} {excluded : List Char} {allowEmpty : Bool}
  {quote : Option Quote} {value : Text} {children : List Token}

theorem WellFormed.eq_nil_of_render {spacing : Spacing}
    (h : WellFormed e spacing excluded ⟨quote, children⟩) (noText : Token.renderAll children = []) :
    children = [] := by
  cases quote with
  | some quote => exact Word.eq_nil_of_render h noText
  | none => exact Word.eq_nil_of_render h.1 noText

/-- The parts of a well-formed literal are what its content reads as. -/
theorem WellFormed.run_content (he : IsEscape e) {spacing : Spacing} (hs : spacing ≠ .separates)
    (h : WellFormed e spacing excluded ⟨quote, children⟩) (nonempty : children ≠ []) :
    run (literalContent e spacing excluded quote) (Token.renderAll children) =
      some (children, []) := by
  cases quote with
  | some quote =>
    have he' : IsEscape (ContentRules.quoted e quote).escape := he
    have read := run_content_of_word he' (by simp [ContentRules.quoted]) h nonempty
      (h.readsReferences he') (boundary_nil children) run_unit_nil
    rw [List.append_nil] at read
    exact run_bind_eq_some.mpr ⟨_, _, run_optional_of_some read, rfl⟩
  | none =>
    have he' : IsEscape (ContentRules.bare e spacing excluded).escape := he
    have read := run_content_of_word he' hs h.1 nonempty (h.1.readsReferences he')
      (boundary_nil children) run_unit_nil
    rwa [List.append_nil] at read

/-- The parts that are read for a value are none, for an empty value without quotes, or those of a
well-formed literal with the text of the value. -/
theorem readContent_sound
    (h : readContent field e excluded allowEmpty quote value = .ok children) :
    Token.renderAll children = value ∧
      ((allowEmpty = true ∧ quote = none ∧ children = []) ∨
        WellFormed e .ends excluded ⟨quote, children⟩) := by
  unfold readContent at h
  cases value with
  | nil =>
    cases quote with
    | none =>
      cases allowEmpty with
      | false => cases h
      | true =>
        cases h
        exact ⟨rfl, .inl ⟨rfl, rfl, rfl⟩⟩
    | some quote =>
      cases h
      exact ⟨rfl, .inr (Suffix.nil.word (by simp))⟩
  | cons c value =>
    have read := complete_eq_ok.mp (readAs_eq_ok.mp h)
    have whole : c :: value = Token.renderAll children ++ [] :=
      (lossless_literalContent e .ends excluded quote).append_eq read
    refine ⟨by rw [whole, List.append_nil], .inr ?_⟩
    exact run_literalContent_sound (by decide) read

/-- A value that is not read is refused for the field. -/
theorem readContent_eq_error {error : Error}
    (h : readContent field e excluded allowEmpty quote value = .error error) :
    ∃ refusal, error = .invalid field refusal := by
  unfold readContent at h
  split at h
  · split at h
    · exact ⟨.empty, (Except.error.inj h).symm⟩
    · cases h
  · rw [readAs] at h
    cases read : complete (literalContent e .ends excluded quote) value with
    | ok children =>
      rw [read] at h
      cases h
    | error failure =>
      rw [read] at h
      exact ⟨.unreadable value failure, (Except.error.inj h).symm⟩

/-- A value reads as the content of a literal if and only if it is the text of the parts of a
well-formed one; where that is allowed, it may also be empty. -/
theorem readContent_eq_ok (he : IsEscape e) :
    readContent field e excluded allowEmpty quote value = .ok children ↔
      Token.renderAll children = value ∧
        ((allowEmpty = true ∧ quote = none ∧ children = []) ∨
          WellFormed e .ends excluded ⟨quote, children⟩) := by
  refine ⟨readContent_sound, ?_⟩
  rintro ⟨rfl, ⟨rfl, rfl, rfl⟩ | wellFormed⟩
  · rfl
  · by_cases noText : Token.renderAll children = []
    · obtain rfl := wellFormed.eq_nil_of_render noText
      cases quote with
      | some quote => rfl
      | none => exact absurd rfl wellFormed.2
    · have nonempty : children ≠ [] := by
        rintro rfl
        exact noText rfl
      rw [readContent, if_neg (by simpa using noText), readAs_eq_ok, complete_eq_ok]
      exact wellFormed.run_content he (by decide) nonempty

/-! ## Setting the content -/

theorem apply_setContent (field : EditField) (e : Char) (excluded : List Char) (allowEmpty : Bool)
    (value : Text) (l : Literal) :
    Edit.apply (setContent field e excluded allowEmpty value) l =
      match readContent field e excluded allowEmpty (l.quoteWith value) value with
      | .ok children => ⟨⟨l.quoteWith value, children⟩, none⟩
      | .error error => ⟨l, some error⟩ := by
  unfold Edit.apply
  rw [setContent, Edit.get_bind, Edit.check_bind]
  cases readContent field e excluded allowEmpty (l.quoteWith value) value <;> rfl

/-- Where no empty value is allowed, setting a value either changes nothing or gives a well-formed
literal that holds the text of the value, in the quotes of the old one or in those it needs. -/
theorem setContent_cases (field : EditField) (e : Char) (excluded : List Char) (value : Text)
    (l : Literal) :
    (∃ error, Edit.apply (setContent field e excluded false value) l = ⟨l, some error⟩) ∨
      ∃ children, Edit.apply (setContent field e excluded false value) l =
          ⟨⟨l.quoteWith value, children⟩, none⟩ ∧
        Token.renderAll children = value ∧
        WellFormed e .ends excluded ⟨l.quoteWith value, children⟩ := by
  rw [apply_setContent]
  cases hc : readContent field e excluded false (l.quoteWith value) value with
  | error error => exact .inl ⟨error, rfl⟩
  | ok children =>
    obtain ⟨text, ⟨noEmpty, -⟩ | wellFormed⟩ := readContent_sound hc
    · cases noEmpty
    · exact .inr ⟨children, rfl, text, wellFormed⟩

end Literal

/-! ## Setting and reading alike -/

namespace Literal

variable {e : Char} {spacing : Spacing} {excluded : List Char} {quote : Option Quote}
  {value : Text} {children : List Token}

/-- The content of a literal is exact: a text that is not empty reads as the content in a quote if
and only if it is the text of the parts of a well-formed literal in this quote. -/
theorem complete_literalContent_eq_ok (he : IsEscape e) (hs : spacing ≠ .separates)
    (nonempty : value ≠ []) :
    complete (literalContent e spacing excluded quote) value = .ok children ↔
      Token.renderAll children = value ∧ WellFormed e spacing excluded ⟨quote, children⟩ := by
  rw [complete_eq_ok]
  constructor
  · intro read
    have whole : value = Token.renderAll children ++ [] :=
      (lossless_literalContent e spacing excluded quote).append_eq read
    exact ⟨by rw [whole, List.append_nil], run_literalContent_sound hs read⟩
  · rintro ⟨rfl, wellFormed⟩
    refine wellFormed.run_content he hs ?_
    rintro rfl
    exact nonempty rfl

/-- Between its quotes, the text of a literal is the text of its parts. -/
theorem render_eq_wrapped_iff :
    render ⟨quote, children⟩ = Quote.mark quote ++ value ++ Quote.mark quote ↔
      Token.renderAll children = value := by
  rw [render_eq, List.append_left_inj, List.append_right_inj]

/-- Setting a text that is not empty reads it as content in the quote that the literal ends up
with. -/
theorem apply_setText_iff (nonempty : value ≠ []) {l l' : Literal} :
    Edit.apply (setText e value) l = ⟨l', none⟩ ↔
      l'.quote = l.quoteWith value ∧
        complete (literalContent e .ends [] l'.quote) value = .ok l'.children := by
  have reads : readContent .literal e [] true (l.quoteWith value) value =
      readAs (fun failure => .invalid .literal (.unreadable value failure))
        (literalContent e .ends [] (l.quoteWith value)) value := by
    rw [readContent, if_neg (by simpa using nonempty)]
  rw [setText, apply_setContent, reads]
  obtain ⟨quote, children⟩ := l'
  constructor
  · intro h
    split at h
    · next found read =>
      cases h
      exact ⟨rfl, readAs_eq_ok.mp read⟩
    · cases h
  · rintro ⟨rfl, read⟩
    rw [readAs_eq_ok.mpr read]

end Literal

/-- A text is read alike by itself and between quotes: as content in a quote it has the same parts
as the literal that it is in this quote. So setting a literal to a text succeeds if and only if the
text reads as a literal in the quote that this one ends up with, and it stores what is read. -/
theorem content_and_literal_read_alike {e : Char} (he : IsEscape e) {value : Text}
    (nonempty : value ≠ []) :
    (∀ (excluded : List Char) (quote : Option Quote) (children : List Token),
      complete (literalContent e .ends excluded quote) value = .ok children ↔
        complete (literal e .ends excluded) (Quote.mark quote ++ value ++ Quote.mark quote) =
          .ok ⟨quote, children⟩) ∧
    ∀ l l' : Literal, Edit.apply (Literal.setText e value) l = ⟨l', none⟩ ↔
      l'.quote = l.quoteWith value ∧
        complete (literal e .ends []) (Quote.mark l'.quote ++ value ++ Quote.mark l'.quote) =
          .ok l' := by
  have alike (excluded : List Char) (quote : Option Quote) (children : List Token) :
      complete (literalContent e .ends excluded quote) value = .ok children ↔
        complete (literal e .ends excluded) (Quote.mark quote ++ value ++ Quote.mark quote) =
          .ok ⟨quote, children⟩ := by
    rw [Literal.complete_literalContent_eq_ok he (by decide) nonempty,
      complete_literal_eq_ok he (by decide), Literal.render_eq_wrapped_iff]
  refine ⟨alike, fun l l' => ?_⟩
  rw [Literal.apply_setText_iff nonempty, alike]

/-- A literal without quotes takes `a $b` in double quotes, with the parts that it has there; and it
refuses `a "b`, which is no literal in double quotes. -/
theorem content_and_literal_read_alike_sample :
    (∃ l, Edit.apply (Literal.setText '`' "a $b".toList) (.new ['x']) = ⟨l, none⟩ ∧
      complete (literal '`' .ends []) "\"a $b\"".toList = .ok l) ∧
    ∀ l, Edit.apply (Literal.setText '`' "a \"b".toList) (.new ['x']) ≠ ⟨l, none⟩ := by
  obtain ⟨-, set⟩ := @content_and_literal_read_alike '`' (.inr rfl) "a $b".toList (by decide)
  obtain ⟨-, refused⟩ := @content_and_literal_read_alike '`' (.inr rfl) "a \"b".toList (by decide)
  have facts : (complete (literal '`' .ends []) "\"a $b\"".toList).toOption.map Literal.quote =
      some (some .double) := by
    decide +kernel
  obtain ⟨l, read, quoted⟩ := exists_of_computed facts
  have unread : (complete (literal '`' .ends []) "\"a \"b\"".toList).isOk = false := by
    decide +kernel
  refine ⟨⟨l, (set (.new ['x']) l).mpr ⟨quoted, ?_⟩, read⟩, fun l' accepted => ?_⟩
  · rw [quoted]
    exact read
  · obtain ⟨quoted', read'⟩ := (refused (.new ['x']) l').mp accepted
    rw [quoted'] at read'
    obtain ⟨failure, failed⟩ := exists_of_not_isOk unread
    exact absurd (failed.symm.trans read') nofun

/-! ## The text of a value -/

theorem canonicalText_eq (value : Text) :
    canonicalText value = Quote.mark (quoteFor value) ++ value ++ Quote.mark (quoteFor value) := by
  rw [canonicalText, Literal.ofValue, Literal.render_eq]
  simp [Literal.new]

theorem canonicalText_cases (value : Text) :
    (quoteFor value = none ∧ canonicalText value = value) ∨
      (quoteFor value = some .double ∧
        canonicalText value = Quote.double.char :: (value ++ [Quote.double.char])) := by
  rw [canonicalText_eq, quoteFor]
  split
  · exact .inr ⟨rfl, rfl⟩
  · exact .inl ⟨rfl, by simp [Quote.mark]⟩

/-- The quotes around a value are no part of a line continuation. -/
theorem holdsBreak_of_canonicalText {e : Char} (he : IsEscape e) {value : Text}
    (h : HoldsBreak e (canonicalText value)) : HoldsBreak e value := by
  have none : ¬ HoldsBreak e [] := mt HoldsBreak.newLine_mem (by simp)
  have apart {s t : Text} (h : HoldsBreak e (s ++ Quote.double.char :: t)) :
      HoldsBreak e s ∨ HoldsBreak e t :=
    h.of_append_cons (he.ne_quote .double).symm (by decide) (by decide)
  rcases canonicalText_cases value with ⟨-, text⟩ | ⟨-, text⟩
  · rwa [text] at h
  · rw [text] at h
    rcases @apart [] _ h with h | h
    · exact absurd h none
    rcases apart h with h | h
    · exact h
    · exact absurd h none

/-- The text of a value that is given, with the equals sign before it. -/
def givenText (value : Option Text) : Text :=
  value.elim [] fun value => '=' :: canonicalText value

/-- No line continuation stands across the equals sign before a value. -/
theorem HoldsBreak.of_givenText {e : Char} (he : IsEscape e) {s : Text} {value : Option Text}
    (h : HoldsBreak e (s ++ givenText value)) :
    HoldsBreak e s ∨ ∃ v ∈ value, HoldsBreak e v := by
  cases value with
  | none =>
    rw [givenText, Option.elim_none, List.append_nil] at h
    exact .inl h
  | some value =>
    have notEscape : '=' ≠ e := by
      rcases he with rfl | rfl <;> decide
    rcases h.of_append_cons notEscape (by decide) (by decide) with h | h
    · exact .inl h
    · exact .inr ⟨value, rfl, holdsBreak_of_canonicalText he h⟩

/-! ## Values for literals without quotes -/

namespace Literal

variable {field : EditField} {e : Char} {excluded : List Char} {allowEmpty : Bool} {value : Text}
  {l : Literal}

/-- The value can be set on a literal that has no quotes. -/
def isSettable (field : EditField) (e : Char) (excluded : List Char) (allowEmpty : Bool)
    (value : Text) : Bool :=
  (readContent field e excluded allowEmpty (quoteFor value) value).toOption.isSome

/-- What can be read for a value: a well-formed literal, or the empty one where that is allowed. -/
def Readable (e : Char) (excluded : List Char) (allowEmpty : Bool) (l : Literal) : Prop :=
  allowEmpty = true ∧ l = .empty ∨ l.WellFormed e .ends excluded

theorem readContent_eq_ok_iff (he : IsEscape e) {quote : Option Quote} {children : List Token} :
    readContent field e excluded allowEmpty quote value = .ok children ↔
      Readable e excluded allowEmpty ⟨quote, children⟩ ∧ Token.renderAll children = value := by
  rw [readContent_eq_ok he, Readable, empty, Literal.mk.injEq, and_comm]

theorem isSettable_iff (he : IsEscape e) :
    isSettable field e excluded allowEmpty value = true ↔ ∃ children,
      Readable e excluded allowEmpty ⟨quoteFor value, children⟩ ∧
        Token.renderAll children = value := by
  have read (children : List Token) : Readable e excluded allowEmpty ⟨quoteFor value, children⟩ ∧
      Token.renderAll children = value ↔
        readContent field e excluded allowEmpty (quoteFor value) value = .ok children :=
    (readContent_eq_ok_iff he).symm
  simp only [read]
  rw [isSettable]
  cases readContent field e excluded allowEmpty (quoteFor value) value with
  | ok children => exact iff_of_true rfl ⟨children, rfl⟩
  | error error => exact iff_of_false nofun nofun

/-- The value of what was read is its text if that holds no line continuation. -/
theorem Readable.value_eq (he : IsEscape e) (h : l.Readable e excluded allowEmpty)
    (unbroken : ¬ HoldsBreak e (Token.renderAll l.children)) :
    l.value = Token.renderAll l.children := by
  rcases h with ⟨-, rfl⟩ | wellFormed
  · rfl
  · refine (wellFormed.value_eq_iff he).mpr fun newLine => ?_
    exact unbroken (wellFormed.holdsBreak he newLine)

/-- A value that is read back from its text is one that can be set. -/
theorem Readable.isSettable (he : IsEscape e) (h : l.Readable e excluded allowEmpty)
    (text : l.render = canonicalText l.value) :
    isSettable field e excluded allowEmpty l.value = true := by
  rw [isSettable_iff he]
  rcases canonicalText_cases l.value with ⟨bare, same⟩ | ⟨quoted, same⟩
  · have own : l.quote = none := quote_eq_none (by rw [text, same])
    refine ⟨l.children, ?_, by rw [← render_of_bare own, text, same]⟩
    rwa [bare, ← own]
  · rcases h with ⟨-, rfl⟩ | wellFormed
    · cases quoted
    · obtain ⟨own, content⟩ := wellFormed.eq_of_render_quoted he (text.trans same)
      refine ⟨l.children, .inr ?_, content⟩
      rwa [quoted, ← own]

/-- Even if more of the text follows, a value that is read back from its text can be set. -/
theorem Readable.isSettable_of_append (he : IsEscape e) (h : l.Readable e excluded allowEmpty)
    {r : Text} (text : l.render ++ r = canonicalText l.value) (unbroken : ¬ HoldsBreak e l.value) :
    Literal.isSettable field e excluded allowEmpty l.value = true := by
  refine h.isSettable he ?_
  obtain ⟨own, children⟩ := l
  have value : Literal.value ⟨own, children⟩ = Token.renderAll children := by
    refine h.value_eq he fun holds => unbroken (holdsBreak_of_canonicalText he ?_)
    rw [← text, render_eq]
    exact holds.mono ⟨Quote.mark own, Quote.mark own ++ r, by simp⟩
  have short := congrArg List.length text
  rw [value] at text short ⊢
  rw [render_eq] at text short ⊢
  rcases own with _ | quote
  · rcases canonicalText_cases (Token.renderAll children) with ⟨-, same⟩ | ⟨quoted, same⟩
    · rw [same]
      simp [Quote.mark]
    · -- the text begins with a quote, and the literal does not
      rcases h with ⟨-, empty⟩ | ⟨isWord, nonempty⟩
      · obtain rfl : children = [] := congrArg Literal.children empty
        cases quoted
      · rw [same] at text
        have head : (Token.renderAll children ++ r).head? = some Quote.double.char := by
          simpa [Quote.mark] using congrArg List.head? text
        exact absurd head (isWord.head_ne_quote he nonempty r .double)
  · -- nothing is left, because no text of a value is longer than the one in quotes
    have noMore : r = [] := by
      rcases canonicalText_cases (Token.renderAll children) with ⟨-, same⟩ | ⟨-, same⟩
      all_goals
        rw [same] at short
        simp only [Quote.mark, List.length_append, List.length_cons, List.length_nil] at short
        exact List.length_eq_zero_iff.mp (by omega)
    rw [noMore, List.append_nil] at text
    exact text

/-- The literal of a value that can be set, with the text of the value. -/
theorem exists_of_isSettable (he : IsEscape e)
    (h : isSettable field e excluded allowEmpty value = true) (unbroken : ¬ HoldsBreak e value) :
    ∃ children, readContent field e excluded allowEmpty (quoteFor value) value = .ok children ∧
      Literal.render ⟨quoteFor value, children⟩ = canonicalText value ∧
      Literal.value ⟨quoteFor value, children⟩ = value := by
  obtain ⟨children, readable, text⟩ := (isSettable_iff he).mp h
  refine ⟨children, (readContent_eq_ok_iff he).mpr ⟨readable, text⟩, ?_, ?_⟩
  · rw [render_eq, text, canonicalText_eq]
  · rw [readable.value_eq he (by rwa [text]), text]

end Literal

end DockerfileSyntax
