import DockerfileSyntax.Proofs.Content.Stripping
import DockerfileSyntax.Proofs.Identifiers.Aggregates
import DockerfileSyntax.Proofs.Names

/-!
# Values are texts without line continuations

The value of a literal, an identifier or a keyword is what `Text.strip` leaves of the text between
its quotes: `values_are_stripped`. For content this is `Word.strip_render`. An identifier may be
made of any characters, white space and line ends among them, so that its parts stand before texts
that break the line. They are read one by one, each in front of whatever is left there, and that may
end with the closing quote: `Strippable`.
-/

namespace DockerfileSyntax

open Grammar DockerfileSyntax.Parser

variable {e : Char}

/-! ## Letters -/

theorem toNat_ofNat_cases (n : Nat) : (Char.ofNat n).toNat = n ∨ (Char.ofNat n).toNat = 0 := by
  by_cases valid : n.isValidChar
  · exact .inl (congrArg Char.toNat (dif_pos valid))
  · exact .inr (congrArg Char.toNat (dif_neg valid))

/-- The lower case of a character that is no ASCII character is no escape character. -/
theorem mapCase_lowerRuns_ne (he : IsEscape e) {c : Char} (h : ¬ c.toNat < 128) :
    mapCase lowerRuns c ≠ e := by
  have few : 0 < e.toNat ∧ e.toNat ≤ 0x60 := by rcases he with rfl | rfl <;> decide
  intro same
  rw [← same, mapCase] at few
  split at few
  · next run found =>
    have all : lowerRuns.all (fun run => decide (0x60 < run.image)) = true := by decide
    have beyond : 0x60 < run.image := by
      simpa using List.all_eq_true.mp all run (List.mem_of_find?_eq_some found)
    rcases toNat_ofNat_cases (run.map c.toNat) with code | code <;> rw [code] at few
    · rw [CaseRun.map] at few
      omega
    · omega
  · omega

theorem eq_of_toLower_eq (he : IsEscape e) {c : Char} (h : c.toNat < 128) (same : c.toLower = e) :
    c = e := by
  have all : ∀ n < 128, ((Char.ofNat n).toLower = '\\' → Char.ofNat n = '\\') ∧
      ((Char.ofNat n).toLower = '`' → Char.ofNat n = '`') := by
    decide +kernel
  have own := all c.toNat h
  rw [Char.ofNat_toNat] at own
  rcases he with rfl | rfl
  · exact own.1 same
  · exact own.2 same

/-- No other character has an escape character for its lower case. -/
theorem eq_of_lowerCase_eq (he : IsEscape e) {c : Char} (h : lowerCase c = [e]) : c = e := by
  unfold lowerCase at h
  split at h
  · next ascii => exact eq_of_toLower_eq he ascii (List.cons.inj h).1
  · split at h
    · cases h
    · next beyond _ => exact absurd (List.cons.inj h).1 (mapCase_lowerRuns_ne he beyond)

theorem sameLetter_escape (he : IsEscape e) {letter : Char} (h : letter ≠ e) :
    sameLetter e letter = false := by
  have own : lowerCase e = [e] := by rcases he with rfl | rfl <;> rfl
  rw [sameLetter, own, beq_eq_false_iff_ne]
  exact fun same => h (eq_of_lowerCase_eq he same.symm)

/-! ## Stripping in front of any text -/

namespace Text

theorem strip_breaks {breaks : List Continuation} (all : ∀ k ∈ breaks, k.IsBreak e) (r : Text) :
    strip e (breaksText breaks ++ r) = strip e r := by
  induction breaks with
  | nil => rfl
  | cons k breaks ih =>
    obtain ⟨first, others⟩ := List.forall_mem_cons.mp all
    rw [breaksText_cons, List.append_assoc, strip_break first, ih others]

/-- A line break is not seen across a character that is none of its own. -/
theorem belowBreak?_append_cons {d : Char} (notBlank : isInlineBlank d = false)
    (inLine : isLineEnd d = false) (s r : Text) :
    belowBreak? (s ++ d :: r) = (belowBreak? s).map (· ++ d :: r) := by
  have notEnd : d ≠ '\n' ∧ d ≠ '\r' := by
    constructor <;> rintro rfl <;> exact absurd inLine (by decide)
  have split : (s ++ d :: r).dropWhile isInlineBlank = s.dropWhile isInlineBlank ++ d :: r := by
    rw [List.dropWhile_append]
    split
    · next empty =>
      rw [List.isEmpty_iff.mp empty, List.dropWhile_cons_of_neg (by simp [notBlank])]
      rfl
    · rfl
  rw [belowBreak?, split, belowBreak?]
  obtain ⟨notNewLine, notReturn⟩ := notEnd
  rcases s.dropWhile isInlineBlank with _ | ⟨c, _ | ⟨c', t⟩⟩
  · split <;> simp_all
  · split <;> split <;> simp_all
  · split <;> split <;> simp_all

/-- No line continuation stands across a character that is none of its own, and so the text strips
up to there whatever follows. -/
theorem strip_append_cons {d : Char} (notEscape : d ≠ e) (notBlank : isInlineBlank d = false)
    (inLine : isLineEnd d = false) (s r : Text) :
    strip e (s ++ d :: r) = strip e (s ++ [d]) ++ strip e r := by
  induction s using strip.induct e with
  | case1 => simp [strip_cons notEscape]
  | case2 t below broken _ ih =>
    have split (r : Text) : belowBreak? (t ++ d :: r) = some (below ++ d :: r) := by
      rw [belowBreak?_append_cons notBlank inLine, broken]
      rfl
    rw [List.cons_append, List.cons_append, strip_of_belowBreak? (split r),
      strip_of_belowBreak? (split []), ih]
  | case3 =>
    have goesOn (r : Text) : breaksLine (d :: r) = false := breaksLine_of_head notBlank inLine
    simp [strip_pair (goesOn _)]
  | case4 c t unbroken ih =>
    have split (r : Text) : belowBreak? (c :: (t ++ d :: r)) = none := by
      rw [← List.cons_append, belowBreak?_append_cons notBlank inLine, unbroken]
      rfl
    simp only [List.cons_append, strip_of_not_belowBreak? (split _), ih]
  | case5 c t notEscape ih =>
    simp only [List.cons_append, strip_cons notEscape, ih]

end Text

/-- A reference strips to its value in front of any text. -/
theorem Part.strip_reference {rules : ContentRules} (he : IsEscape rules.escape) {braced : Bool}
    {children : List Token} (h : Part rules (.reference braced children)) (r : Text) :
    Text.strip rules.escape ((Token.reference braced children).render ++ r) =
      (Token.reference braced children).value ++ Text.strip rules.escape r := by
  obtain ⟨s, d, text, last⟩ := h.exists_last
  obtain ⟨notEscape, notBlank⟩ : d ≠ rules.escape ∧ isBlank d = false := by
    rcases last with rfl | isChar
    · exact ⟨he.ne_closingBrace.symm, by decide⟩
    · exact ⟨ne_of_class isChar he.not_isVariableNameChar, not_isBlank_of_isVariableNameChar isChar⟩
  have inLine : isLineEnd d = false := by
    cases ends : isLineEnd d with
    | false => rfl
    | true => exact absurd (isBlank_of_isLineEnd ends) (by simp [notBlank])
  have whole := (h.strips he).strip_eq
  rw [text] at whole ⊢
  rw [← whole, List.append_assoc]
  exact Text.strip_append_cons notEscape (by simp [isInlineBlank, notBlank]) inLine s r

/-! ## Parsers -/

/-- What the parser reads strips to its value in front of what is left there, less a closing quote
at the end of that. -/
structure Strippable (e : Char) (p : Parser (List Token)) : Prop where
  strip_eq {s r : Text} {ts : List Token} (quote : Option Quote) :
    run p s = some (ts, r ++ Quote.mark quote) →
    Text.strip e (Token.renderAll ts ++ r) = Token.valueAll ts ++ Text.strip e r

theorem breaksLine_append_mark (s : Text) (quote : Option Quote) :
    breaksLine (s ++ Quote.mark quote) = breaksLine s := by
  cases quote with
  | none => rw [Quote.mark, List.append_nil]
  | some quote => cases quote <;> exact breaksLine_append_cons (by decide) (by decide) s []

theorem strippable_charBelow {what : Expectation} {holds : Char → Bool} (apart : holds e = false) :
    Strippable e (charBelow e what holds) := by
  refine ⟨fun {s r ts} quote h => ?_⟩
  obtain ⟨breaks, c, all, held, -, -, rfl⟩ := run_charBelow_eq_some.mp h
  have text : Token.renderAll (breaks.map Continuation.toToken ++ [.string [c]]) ++ r =
      breaksText breaks ++ c :: r := by
    simp [breaksText]
  rw [text, valueAll_breaks, Text.strip_breaks all, Text.strip_cons (ne_of_class held apart)]
  rfl

/-- Parts that are read one after the other strip to their values. -/
theorem Strippable.steps {p : Parser (List Token)} [Regular p] (h : Strippable e p)
    (lossless : Lossless p Token.renderAll) {s r : Text} {items : List (List Token)}
    {quote : Option Quote} (steps : Steps p s items (r ++ Quote.mark quote)) :
    Text.strip e (Token.renderAll items.flatten ++ r) =
      Token.valueAll items.flatten ++ Text.strip e r := by
  generalize left : r ++ Quote.mark quote = rest at steps
  -- what is left behind one part is the text of the others and `r`, and so strips by induction
  induction steps with
  | nil => rfl
  | @cons s m rest item items first _ others ih =>
    have behind : m = Token.renderAll items.flatten ++ r ++ Quote.mark quote := by
      rw [renderAll_flatten, List.append_assoc, left]
      exact lossless.steps others
    rw [behind] at first
    rw [List.flatten_cons, Token.renderAll_append, Token.valueAll_append, List.append_assoc,
      List.append_assoc, h.strip_eq quote first, ih left]

theorem strippable_laterChar {rules : NameRules} (apart : rules.later rules.escape = false)
    (excluded : List Char) : Strippable rules.escape (laterChar rules excluded) := by
  refine ⟨fun {s r ts} quote h => ?_⟩
  rcases run_laterChar_eq_some.mp h with plain | ⟨-, c, -, unbroken, rfl, -⟩
  · exact (strippable_charBelow (by simp [apart])).strip_eq quote plain
  · rw [← List.cons_append, breaksLine_append_mark] at unbroken
    exact Text.strip_pair unbroken

theorem strippable_nameRun {rules : NameRules} (apart : rules.first rules.escape = false)
    (apart' : rules.later rules.escape = false) (excluded : List Char) :
    Strippable rules.escape (nameRun rules excluded) := by
  refine ⟨fun {s r ts} quote h => ?_⟩
  obtain ⟨head, items, m, -, isFirst, repeated, rfl⟩ := run_nameRun_eq_some.mp h
  have notEscape := ne_of_class (Bool.and_eq_true_iff.mp isFirst).1 apart
  have tail := (strippable_laterChar apart' excluded).steps (lossless_laterChar ..)
    (run_many_eq_some.mp repeated).1
  rw [renderAll_mergeStrings, valueAll_mergeStrings, Token.renderAll, Token.valueAll, Token.render,
    Token.value, List.cons_append, List.nil_append, List.cons_append, Text.strip_cons notEscape,
    tail]
  rfl

theorem strippable_aggregatePart {rules : NameRules} (he : IsEscape rules.escape)
    (apart : rules.first rules.escape = false) (apart' : rules.later rules.escape = false)
    (quote : Option Quote) : Strippable rules.escape (aggregatePart rules quote) := by
  refine ⟨fun {s r ts} quote' h => ?_⟩
  rcases run_aggregatePart_eq_some.mp h with ⟨found, read, rfl⟩ | ⟨-, read⟩
  · have isPart : Part (.word rules.escape) found.toToken :=
      (run_referenceWith_sound (readsWords_content rules.escape) read).1
    have alone : Token.renderAll [found.toToken] = found.toToken.render := List.append_nil _
    have alone' : Token.valueAll [found.toToken] = found.toToken.value := List.append_nil _
    rw [alone, alone']
    exact isPart.strip_reference he r
  · exact (strippable_nameRun apart apart' _).strip_eq quote' read

theorem strippable_identifierContent {rules : NameRules} (he : IsEscape rules.escape)
    (apart : rules.first rules.escape = false) (apart' : rules.later rules.escape = false)
    (quote : Option Quote) : Strippable rules.escape (identifierContent rules quote) := by
  refine ⟨fun {s r ts} quote' h => ?_⟩
  obtain ⟨parts, steps, -, -, rfl⟩ := run_identifierContent_eq_some.mp h
  rw [renderAll_mergeStrings, valueAll_mergeStrings]
  exact (strippable_aggregatePart he apart apart' quote).steps (lossless_aggregatePart ..) steps

theorem strippable_keywordTail {what : Expectation} {letters : Text}
    (apart : ∀ letter ∈ letters, sameLetter e letter = false) :
    Strippable e (keywordTail e what letters) := by
  induction letters with
  | nil =>
    refine ⟨fun {s r ts} quote h => ?_⟩
    obtain ⟨rfl, -⟩ := run_pure_eq_some.mp h
    rfl
  | cons letter letters ih =>
    obtain ⟨first, others⟩ := List.forall_mem_cons.mp apart
    refine ⟨fun {s r ts} quote h => ?_⟩
    obtain ⟨found, m, read, h⟩ := run_bind_eq_some.mp h
    obtain ⟨more, m', read', h⟩ := run_bind_eq_some.mp h
    obtain ⟨rfl, rfl⟩ := run_pure_eq_some.mp h
    obtain rfl := (lossless_keywordTail ..).append_eq read'
    rw [← List.append_assoc] at read
    have strips : Strippable e (charBelow e what (sameLetter · letter)) :=
      strippable_charBelow first
    have here := strips.strip_eq quote read
    rw [Token.renderAll_append, Token.valueAll_append, List.append_assoc, List.append_assoc, here,
      (ih others).strip_eq quote read']

/-! ## Tokens -/

/-- The text is the token's quotes around one that strips to the value. -/
def StripsWithin (e : Char) (quote : Option Quote) (value text : Text) : Prop :=
  ∃ inner, text = Quote.mark quote ++ inner ++ Quote.mark quote ∧ value = Text.strip e inner

theorem Literal.stripsWithin (he : IsEscape e) {spacing : Spacing} (hs : spacing ≠ .separates)
    {excluded : List Char} {text : Text} {l : Literal}
    (h : complete (literal e spacing excluded) text = .ok l) :
    StripsWithin e l.quote l.value text := by
  obtain ⟨rfl, wellFormed⟩ := (complete_literal_eq_ok he hs).mp h
  obtain ⟨quote, children⟩ := l
  refine ⟨_, Literal.render_eq quote children, ?_⟩
  cases quote with
  | some quote => exact (Word.strip_render wellFormed he).symm
  | none => exact (Word.strip_render wellFormed.1 he).symm

theorem Identifier.stripsWithin {content : Parser (List Token)} (strippable : Strippable e content)
    (lossless : Lossless content Token.renderAll) {i : Identifier} {t : Text}
    (h : run content t = some (i.children, Quote.mark i.quote)) :
    StripsWithin e i.quote i.value (Quote.mark i.quote ++ t) := by
  obtain rfl := lossless.append_eq h
  have stripped := strippable.strip_eq (r := []) i.quote h
  simp only [List.append_nil, Text.strip_nil] at stripped
  exact ⟨Token.renderAll i.children, (List.append_assoc ..).symm, stripped.symm⟩

theorem Keyword.value_of_complete (he : IsEscape e) {name text : Text}
    (free : ∀ letter ∈ name, letter ≠ e) {k : Keyword}
    (h : complete (keyword e name) text = .ok k) : k.value = Text.strip e text := by
  have read := complete_eq_ok.mp h
  cases name with
  | nil =>
    rw [keyword, run_attempt] at read
    obtain ⟨rfl, rfl⟩ := run_pure_eq_some.mp read
    exact (Text.strip_nil e).symm
  | cons letter letters =>
    have apart : ∀ letter' ∈ letter :: letters, sameLetter e letter' = false :=
      fun letter' mem => sameLetter_escape he (free letter' mem)
    obtain ⟨first, others⟩ := List.forall_mem_cons.mp apart
    rw [keyword, run_attempt] at read
    obtain ⟨c, m, hc, read⟩ := run_bind_eq_some.mp read
    obtain ⟨tail, m', ht, read⟩ := run_bind_eq_some.mp read
    obtain ⟨rfl, rfl⟩ := run_pure_eq_some.mp read
    obtain ⟨rfl, same⟩ := run_satisfy_eq_some.mp hc
    have notEscape : c ≠ e := by
      rintro rfl
      exact Bool.noConfusion (same.symm.trans first)
    obtain rfl := (lossless_keywordTail ..).append_eq ht
    have stripped := (strippable_keywordTail others).strip_eq none (r := []) ht
    rw [Text.strip_cons notEscape, stripped]
    simp [Keyword.value, Keyword.toToken]

/-- The value of a literal in which white space does not separate, of an identifier or of a keyword
is the text between its quotes without the line continuations. The escape character must be none of
the characters that an identifier is made of, and none of the letters of the keyword. -/
theorem values_are_stripped (he : IsEscape e) (text : Text) :
    (∀ spacing excluded l, spacing = .ends ∨ spacing = .content →
      complete (literal e spacing excluded) text = .ok l →
      StripsWithin e l.quote l.value text) ∧
    (∀ first later i, first e = false → later e = false →
      (complete (identifier ⟨e, first, later⟩) text = .ok i ∨
        complete (identifierAggregate ⟨e, first, later⟩) text = .ok i) →
      StripsWithin e i.quote i.value text) ∧
    ∀ name k, (∀ letter ∈ name, letter ≠ e) → complete (keyword e name) text = .ok k →
      k.value = Text.strip e text := by
  refine ⟨fun spacing excluded l hs h => ?_, fun first later i apart apart' h => ?_,
    fun name k free h => Keyword.value_of_complete he free h⟩
  · have notSeparates : spacing ≠ .separates := by
      rcases hs with rfl | rfl <;> decide
    exact Literal.stripsWithin he notSeparates h
  · rcases h with h | h
    · obtain ⟨t, rfl, read⟩ := run_identifier_sound (complete_eq_ok.mp h)
      rw [List.append_nil] at read
      exact Identifier.stripsWithin (strippable_nameRun apart apart' _) (lossless_nameRun ..) read
    · obtain ⟨t, rfl, read⟩ := run_identifierAggregate_sound (complete_eq_ok.mp h)
      rw [List.append_nil] at read
      exact Identifier.stripsWithin (strippable_identifierContent he apart apart' _)
        (lossless_identifierContent ..) read

/-- An identifier may go on with blanks: with a line continuation before its last blank, its value
is `a \b `. -/
theorem values_are_stripped_sample :
    StripsWithin '\\' (some .single) "a \\b ".toList "'a \\b\\\n '".toList := by
  have read : complete (identifierAggregate ⟨'\\', (· == 'a'), isBlank⟩) "'a \\b\\\n '".toList =
      .ok ⟨some .single, [.string "a \\b".toList,
        (Continuation.broken '\\' [] ['\n']).toToken, .string [' ']]⟩ :=
    complete_eq_ok.mpr (by decide +kernel)
  obtain ⟨-, identifiers, -⟩ := values_are_stripped (.inl rfl) "'a \\b\\\n '".toList
  exact identifiers _ _ _ (by decide) (by decide) (.inr read)

end DockerfileSyntax
