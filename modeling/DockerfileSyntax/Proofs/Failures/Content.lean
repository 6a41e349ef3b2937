import DockerfileSyntax.Proofs.Content.Beginnings
import DockerfileSyntax.Proofs.Failures.Places
import DockerfileSyntax.Proofs.Literals

/-!
# Where content fails

Reading content fails behind a beginning of content, whatever lookahead and alternatives record on
the way. There is one exception. Before the first unit it is checked that the line does not break,
and the check fails behind an escape character and all the white space that follows; where white
space is not content, two blanks or more behind an escape character are no beginning of any.

1. `failsBehind_unit`: a unit fails behind line continuations and the beginning of one part.
2. `failsBehind_content`: content fails behind a beginning of content, or in the white space.
3. `failsBehind_literal`: and so does a literal.
-/

namespace DockerfileSyntax

namespace Grammar

open DockerfileSyntax.Parser

variable {e : Char} {s : Text} {V : Text → Prop} {rules : ContentRules}

/-! ## Line continuations -/

/-- A line continuation fails at its beginning, or where the line end is missing. -/
theorem failsBehind_continuation (here : V [])
    (mark : ∀ t, run (continuation e) s = none → IsMark e t → V t) :
    FailsBehind (continuation e) s V := by
  refine ((failsBehind_eat [e] here).bind (lossless_eat [e]) fun u m eaten _ => ?_).attempt
  refine FailsBehind.bind (p := blanks) lossless_blanks (failsBehind_takeWhile _)
    fun gap m' blanks _ => ?_
  refine FailsBehind.andPure (p := newLine) (failsBehind_choose _ _ _ fun missing => ?_) _
  have unbroken : run (continuation e) s = none := by
    rw [continuation, run_attempt, run_bind, eaten]
    show run (Grammar.blanks >>= _) m = none
    rw [run_bind, blanks]
    show run (newLine >>= _) m' = none
    rw [run_bind, show run newLine m' = none from missing]
    rfl
  refine mark _ unbroken ⟨gap, (run_takeWhile_eq_some blanks).1, ?_⟩
  rw [List.append_nil]
  rfl

/-- What is read as line continuations, one after the other, are line continuations. -/
theorem isBreak_of_steps {breaks : List Continuation} {r : Text}
    (steps : Steps (continuation e) s breaks r) : ∀ k ∈ breaks, k.IsBreak e := by
  induction steps with
  | nil => simp
  | cons first _ _ ih => exact List.forall_mem_cons.mpr ⟨(isBreak_of_run first).1, ih⟩

/-- Line continuations fail where no further one begins, or in the white space of one that does not
end the line. -/
theorem failsBehind_continuations
    (here : ∀ breaks, (∀ k ∈ breaks, k.IsBreak e) → V (breaksText breaks))
    (mark : ∀ breaks t, (∀ k ∈ breaks, k.IsBreak e) → IsMark e t → V (breaksText breaks ++ t)) :
    FailsBehind (continuations e) s V := by
  refine FailsBehind.many (lossless_continuation e) fun breaks m steps => ?_
  have all := isBreak_of_steps steps
  have text : breaks.flatMap (fun k => k.toToken.render) = breaksText breaks :=
    (renderAll_map _ _).symm
  rw [text]
  refine failsBehind_continuation ?_ fun u _ isMark => mark breaks u all isMark
  rw [List.append_nil]
  exact here breaks all

/-- An escape character that fails to escape is a mark, or there is none. -/
theorem failsBehind_escapedChar (here : V []) (mark : ∀ t, IsMark e t → V t) :
    FailsBehind (escapedChar e) s V := by
  refine (failsBehind_continuation here fun t _ isMark => mark t isMark).sees.bind
    (lossless_sees _) fun broken m seen _ => ?_
  split
  · exact failsBehind_fail _ here
  · refine ((failsBehind_satisfy _ _ here).bind (lossless_satisfy ..) fun c m' read _ => ?_).attempt
    refine (failsBehind_satisfy _ _ ?_).andPure _
    have isEscape := (run_satisfy_eq_some.mp read).2
    exact mark _ ⟨[], by simp, by rw [beq_iff_eq.mp isEscape]; rfl⟩

/-! ## References -/

theorem failsBehind_variableName (here : V []) : FailsBehind variableName s V :=
  (failsBehind_satisfy _ _ here).bind (lossless_satisfy ..) fun _ _ _ _ =>
    (failsBehind_takeWhile _).andPure _

theorem failsBehind_bareReference : FailsBehind bareReference s (BeginsReference rules) := by
  refine ((failsBehind_eat _ (beginsReference_nil rules)).bind (lossless_eat _)
    fun _ m _ _ => ?_).attempt
  refine (failsBehind_variableName ?_).andPure _
  exact ⟨⟨false, [.string ['x']]⟩, ['x'], part_filler rules, rfl⟩

theorem failsBehind_modification {word : Parser (List Token)}
    (short : ∀ m : Text, m.length ≤ s.length → FailsBehind word m (Begins (.word e)))
    (here : V []) (inWord : ∀ (m : Modifier) t, Begins (.word e) t → V (m.symbol ++ t)) :
    FailsBehind (modification word) s V := by
  refine (failsBehind_choose _ _ _ fun _ => here).bind_optional (lossless_choose ..)
    (fun modifier m _ split => ?_) fun _ => failsBehind_pure _
  refine FailsBehind.andPure (FailsBehind.optional ?_) _
  exact (short m (by simp [split])).mono fun t _ => inWord modifier t

theorem failsBehind_literalChar (here : V []) : FailsBehind (literalChar rules) s V := by
  intro c hc f hf
  rw [literalChar_apply] at hf
  split at hf
  · exact failsBehind_satisfy _ _ here c hc f hf
  · exact failsBehind_fail (α := Char) _ here c hc f hf

section

variable {word : Parser (List Token)} [Regular word] (hw : ReadsWords rules.escape word)

include hw

theorem part_of_modification {name m : Text} {modified : List Token}
    (isName : isVariableName name = true)
    (h : run (modification word) s = some (modified, m)) :
    Part rules (.reference true (.string name :: modified)) := by
  rcases run_modification_eq_some.mp h with ⟨rfl, -, -⟩ | ⟨modifier, t, children, -, rfl, read⟩
  · exact .braced isName
  · have isWord : Word (.word rules.escape) children := by
      rcases read with read | ⟨rfl, -, -⟩
      · exact hw _ _ _ read
      · exact Suffix.nil.word (by simp)
    exact .modified modifier isName isWord.parts isWord.joined

variable (lossless : Lossless word Token.renderAll)
  (short : ∀ m : Text, m.length < s.length → FailsBehind word m (Begins (.word rules.escape)))

include lossless short

/-- A reference in braces fails behind a beginning of one: what is missing is a name, the rest of a
word or the closing brace. -/
theorem failsBehind_bracedReference :
    FailsBehind (bracedReference word) s (BeginsReference rules) := by
  refine ((failsBehind_eat _ (beginsReference_nil rules)).bind (lossless_eat _)
    fun _ m _ split => ?_).attempt
  have isX : isVariableName ['x'] = true := by decide
  refine (failsBehind_variableName ⟨⟨true, [.string ['x']]⟩, ['x', '\x7d'], .braced isX, rfl⟩).bind
    lossless_variableName fun name m' read split' => ?_
  have isName := (run_variableName_eq_some.mp read).1
  have inModification : FailsBehind (modification word) m' fun u =>
      BeginsReference rules (['$', '\x7b'] ++ (name ++ u)) := by
    refine failsBehind_modification (fun n hn => short n ?_) ?_ fun modifier u begins => ?_
    · simp only [split, split', List.length_append, List.length_cons]
      omega
    · exact ⟨⟨true, [.string name]⟩, ['\x7d'], .braced isName, by simp [Reference.toToken]⟩
    · obtain ⟨ts, v, isWord, -, text⟩ := begins
      refine ⟨⟨true, [.string name, .symbol modifier.symbol, .literal none ts]⟩, v ++ ['\x7d'],
        .modified modifier isName isWord.parts isWord.joined, ?_⟩
      simp [Reference.toToken, text, Quote.mark]
  refine inModification.bind (lossless_modification lossless) fun modified m₂ read' _ => ?_
  refine (failsBehind_eat _ ?_).andPure _
  exact ⟨⟨true, .string name :: modified⟩, ['\x7d'], part_of_modification hw isName read',
    by simp [Reference.toToken]⟩

theorem failsBehind_referenceWith :
    FailsBehind (referenceWith word) s (BeginsReference rules) :=
  failsBehind_bareReference.firstOf_pair (failsBehind_bracedReference hw lossless short)

/-! ## Units -/

theorem failsBehind_unitPart : FailsBehind (unitPart word rules) s (Starts rules) := by
  refine ((failsBehind_referenceWith hw lossless short).mono fun _ _ => .reference).bind_optional
    (lossless_referenceWith lossless) (fun _ _ _ _ => failsBehind_pure _) fun _ => ?_
  refine (failsBehind_literalChar (starts_nil rules)).bind_optional (lossless_literalChar rules)
    (fun _ _ _ _ => failsBehind_pure _) fun _ => ?_
  exact (failsBehind_escapedChar (starts_nil rules) fun _ => .mark).andPure _

/-- A unit fails behind a beginning of one. -/
theorem failsBehind_unit : FailsBehind (unit word rules) s (StartsUnit rules) := by
  rw [unit_eq]
  have breaks : FailsBehind (continuations rules.escape) s (StartsUnit rules) :=
    failsBehind_continuations (fun breaks all => ⟨breaks, [], all, by simp, starts_nil rules⟩)
      fun breaks t all isMark => ⟨breaks, t, all, rfl, .mark isMark⟩
  refine (breaks.bind (lossless_continuations _) fun breaks m read split => ?_).attempt
  have all := (run_continuations_eq_some.mp read).1
  have part := failsBehind_unitPart (s := m) hw lossless fun n hn => short n (by
    rw [split, List.length_append]
    omega)
  exact (part.mono fun u _ starts => ⟨breaks, u, all, rfl, starts⟩).andPure _

/-! ## Content -/

/-- The first unit fails behind a beginning of content or behind a wide mark. -/
theorem failsBehind_firstUnit (he : IsEscape rules.escape) :
    FailsBehind (firstUnit word rules) s
      fun t => Begins rules t ∨ WideMark rules.escape s t := by
  have check : FailsBehind (continuation rules.escape) s
      fun t => Begins rules t ∨ WideMark rules.escape s t :=
    failsBehind_continuation (.inl (begins_nil rules))
      fun t unbroken isMark => isMark.begins_or_wide he unbroken
  refine (check.sees.bind (lossless_sees _) fun broken m seen _ => ?_).attempt
  obtain ⟨seen, rfl⟩ := Prod.mk.inj (Option.some.inj ((run_sees _ _).symm.trans seen))
  cases broken with
  | true => exact failsBehind_fail _ (.inl (begins_nil rules))
  | false =>
    have unbroken : run (continuation rules.escape) s = none := by simpa using seen
    refine (failsBehind_unit hw lossless short).mono fun t isPrefix starts => ?_
    cases starts.starts unbroken isPrefix with
    | mark isMark => exact isMark.begins_or_wide he unbroken
    | reference begins => exact .inl begins.begins

/-- Content fails behind a beginning of content or behind a wide mark. -/
theorem failsBehind_contentWith (he : IsEscape rules.escape) (hs : rules.spacing ≠ .separates) :
    FailsBehind (contentWith word rules) s
      fun t => Begins rules t ∨ WideMark rules.escape s t := by
  have first := failsBehind_firstUnit hw lossless short he
  refine first.bind (lossless_firstUnit lossless rules) fun item m read split => ?_
  refine FailsBehind.andPure ?_ _
  rw [laterUnit_eq_unit word hs]
  refine FailsBehind.many (lossless_unit lossless rules) fun items m' steps => ?_
  have behind : m = items.flatMap Token.renderAll ++ m' :=
    (lossless_unit lossless rules).steps steps
  have later := failsBehind_unit (s := m') hw lossless fun n hn => short n (by
    simp only [split, behind, List.length_append]
    omega)
  refine later.mono fun u isPrefix starts => .inl ?_
  have continues := starts.continues.behind_units hw lossless steps isPrefix
  rw [renderAll_flatten] at continues
  refine continues.begins hw read ?_
  rw [behind]
  exact (List.prefix_append_right_inj _).mpr isPrefix

end

/-- Content fails behind a beginning of content or behind a wide mark; words within it fail behind a
beginning of a word. -/
theorem failsBehind_content (s : Text) (rules : ContentRules) (he : IsEscape rules.escape)
    (hs : rules.spacing ≠ .separates) :
    FailsBehind (content rules) s fun t => Begins rules t ∨ WideMark rules.escape s t := by
  rw [content_eq]
  refine failsBehind_contentWith (readsWords_content _) (lossless_content _) (fun m _ => ?_) he hs
  have he' : IsEscape (ContentRules.word rules.escape).escape := he
  refine (failsBehind_content m (.word rules.escape) he' (by simp [ContentRules.word])).mono
    fun t _ h => ?_
  rcases h with begins | wide
  · exact begins
  · exact wide.begins he' (wideMarksBegin_word _)
termination_by s.length

/-! ## Literals -/

/-- The text is a beginning of a literal. -/
def BeginsLiteral (e : Char) (spacing : Spacing) (excluded : List Char) (t : Text) : Prop :=
  ∃ (l : Literal) (u : Text), l.WellFormed e spacing excluded ∧ l.render = t ++ u

section

variable {spacing : Spacing} {excluded : List Char} {t : Text}

theorem Begins.beginsLiteral (h : Begins (.bare e spacing excluded) t) :
    BeginsLiteral e spacing excluded t := by
  obtain ⟨ts, u, isWord, nonempty, text⟩ := h
  exact ⟨⟨none, ts⟩, u, ⟨isWord, nonempty⟩, by simp [Literal.render_eq, Quote.mark, text]⟩

theorem beginsLiteral_nil : BeginsLiteral e spacing excluded [] := (begins_nil _).beginsLiteral

theorem Begins.beginsLiteral_quoted {quote : Quote} (h : Begins (.quoted e quote) t) :
    BeginsLiteral e spacing excluded (quote.char :: t) := by
  obtain ⟨ts, u, isWord, -, text⟩ := h
  exact ⟨⟨some quote, ts⟩, u ++ [quote.char], isWord, by simp [Literal.render_eq, Quote.mark, text]⟩

/-- A literal in quotes fails behind a beginning of one. -/
theorem failsBehind_wrapped (he : IsEscape e) (hs : spacing ≠ .separates) (quote : Quote) :
    FailsBehind (do
        let _ ← satisfy .openingQuote (· == quote.char)
        let found ← literalContent e spacing excluded (some quote)
        let _ ← satisfy (.closingQuote quote) (· == quote.char)
        return found) s (BeginsLiteral e spacing excluded) := by
  refine (failsBehind_satisfy _ _ beginsLiteral_nil).bind (lossless_satisfy ..)
    fun c m read _ => ?_
  obtain rfl : c = quote.char := beq_iff_eq.mp (run_satisfy_eq_some.mp read).2
  have he' : IsEscape (ContentRules.quoted e quote).escape := he
  have inContent : FailsBehind (content (.quoted e quote)) m fun u =>
      BeginsLiteral e spacing excluded (quote.char :: u) := by
    refine (failsBehind_content m _ he' (by simp [ContentRules.quoted])).mono fun u _ h => ?_
    rcases h with begins | wide
    · exact begins.beginsLiteral_quoted
    · exact (wide.begins he' (wideMarksBegin_quoted e quote)).beginsLiteral_quoted
  refine FailsBehind.bind (p := literalContent e spacing excluded (some quote))
    (lossless_literalContent ..) (inContent.optional.andPure _) fun found m' read' _ => ?_
  refine (failsBehind_satisfy _ _ ?_).andPure fun _ => found
  exact ⟨⟨some quote, found⟩, [quote.char], run_literalContent_sound hs read',
    by simp [Literal.render_eq, Quote.mark]⟩

/-- A literal fails behind a beginning of one, or behind a wide mark. -/
theorem failsBehind_literal (he : IsEscape e) (hs : spacing ≠ .separates) :
    FailsBehind (literal e spacing excluded) s
      fun t => BeginsLiteral e spacing excluded t ∨ WideMark e s t := by
  have wrapped (quote : Quote) : FailsBehind _ s fun t =>
      BeginsLiteral e spacing excluded t ∨ WideMark e s t :=
    (failsBehind_wrapped he hs quote).mono fun _ _ => .inl
  have he' : IsEscape (ContentRules.bare e spacing excluded).escape := he
  have bare : FailsBehind (literalContent e spacing excluded none) s fun t =>
      BeginsLiteral e spacing excluded t ∨ WideMark e s t :=
    (failsBehind_content s _ he' hs).mono fun t _ h => h.imp_left Begins.beginsLiteral
  have quoted (quote : Quote) :=
    lossless_wrapped (lossless_literalContent e spacing excluded (some quote)) quote
  rw [literal]
  refine FailsBehind.bind (lossless_inOptionalQuotes fun _ => lossless_literalContent ..) ?_
    fun _ _ _ _ => failsBehind_pure _
  refine (wrapped .single).bind_optional (quoted .single) (fun _ _ _ _ => failsBehind_pure _)
    fun _ => ?_
  refine (wrapped .double).bind_optional (quoted .double) (fun _ _ _ _ => failsBehind_pure _)
    fun _ => ?_
  exact bare.andPure _

end

end Grammar

end DockerfileSyntax
