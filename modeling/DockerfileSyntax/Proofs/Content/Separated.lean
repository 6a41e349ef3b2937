import DockerfileSyntax.Proofs.Content.Quoted
import DockerfileSyntax.Proofs.Edits
import DockerfileSyntax.Proofs.Names

/-!
# Content separated by white space

Where white space separates content from content, a later unit may stand behind white space, and the
white space is given back if no unit follows. So what is read is a word as it is where white space
ends the content, and then any number of stretches: white space, line continuations and one more
such word.

1. `exists_stretches_of_run`: what is read is a word and stretches, before any rest.
2. `run_content_of_stretches`: a word and stretches are read as they are.
3. `complete_literal_separates_eq_ok`: what reads as a literal, with or without quotes.
4. `separated_content_is_joined`: the texts that are read without quotes, and their values.
-/

namespace DockerfileSyntax

open Grammar DockerfileSyntax.Parser

/-- The same rules, but white space separates content from content. -/
def ContentRules.separating (rules : ContentRules) : ContentRules :=
  { rules with spacing := .separates }

/-- White space, line continuations and a text behind them, with the tokens of the text. -/
structure Stretch where
  gap : Text
  breaks : List Continuation
  text : Text
  word : List Token

namespace Stretch

/-- The stretch as tokens. -/
def tokens (s : Stretch) : List Token :=
  .whitespace s.gap :: (s.breaks.map Continuation.toToken ++ s.word)

/-- There is white space, and the tokens behind it and the line continuations are a word. -/
structure WellFormed (rules : ContentRules) (s : Stretch) : Prop where
  gap : s.gap ≠ []
  blank : ∀ c ∈ s.gap, isInlineBlank c = true
  breaks : ∀ k ∈ s.breaks, k.IsBreak rules.escape
  text : Token.renderAll s.word = s.text
  word : Word rules s.word
  nonempty : s.word ≠ []

/-- The tokens of stretches. -/
def tokensAll (stretches : List Stretch) : List Token := stretches.flatMap tokens

@[simp] theorem tokensAll_nil : tokensAll [] = [] := rfl

@[simp] theorem tokensAll_cons (s : Stretch) (stretches : List Stretch) :
    tokensAll (s :: stretches) = s.tokens ++ tokensAll stretches := rfl

/-- Stretches do not begin with a string. -/
theorem head_tokensAll (stretches : List Stretch) (text : Text) :
    (tokensAll stretches).head? ≠ some (.string text) := by
  cases stretches <;> simp [tokens]

end Stretch

open Stretch

/-! ## Strings before what is no string -/

theorem prependText_append_of_head {ts us : List Token} (text : Text)
    (notString : ∀ more, us.head? ≠ some (.string more)) :
    prependText text (ts ++ us) = prependText text ts ++ us := by
  cases ts with
  | cons t ts =>
    rcases t with ⟨kind, more⟩ | ⟨kind, children⟩
    · cases kind <;> simp [prependText] <;> split <;> rfl
    · simp [prependText]
      split <;> rfl
  | nil =>
    cases text with
    | nil => simp
    | cons c text =>
      rw [List.nil_append, prependText_of_not_string (by simp) notString]
      rfl

/-- Strings are joined apart from what is behind them if that does not begin with a string. -/
theorem mergeStrings_cons_append {xs ts vs : List Token}
    (merged : mergeStrings xs = mergeStrings ts ++ vs)
    (notString : ∀ more, vs.head? ≠ some (.string more)) (t : Token) :
    mergeStrings (t :: xs) = mergeStrings (t :: ts) ++ vs := by
  rcases t with ⟨kind, text⟩ | ⟨kind, children⟩
  · cases kind with
    | string =>
      rw [mergeStrings_string, mergeStrings_string, merged,
        prependText_append_of_head text notString]
    | _ => simp only [mergeStrings, merged, List.cons_append]
  · rw [mergeStrings_node, mergeStrings_node, merged, List.cons_append]

theorem mergeStrings_append_of_head {us vs : List Token} (merged : mergeStrings us = vs)
    (notString : ∀ more, vs.head? ≠ some (.string more)) (ts : List Token) :
    mergeStrings (ts ++ us) = mergeStrings ts ++ vs := by
  induction ts with
  | nil => exact merged
  | cons t ts ih => exact mergeStrings_cons_append ih notString t

/-! ## Units -/

section Units

variable {word : Parser (List Token)} [Regular word] {rules : ContentRules} {s r : Text}
  {items : List (List Token)}

theorem startsPlain_separating (hs : rules.spacing ≠ .content) (s : Text) :
    startsPlain rules.separating s = startsPlain rules s := by
  have spacing : (rules.spacing == .content) = false := by simpa using hs
  cases s with
  | nil => rfl
  | cons c s =>
    unfold startsPlain
    rw [spacing]
    rfl

theorem literalChar_separating (hs : rules.spacing ≠ .content) :
    literalChar rules.separating = literalChar rules := by
  funext c
  unfold literalChar
  rw [startsPlain_separating hs]

/-- White space between units is no matter of the units. -/
theorem unit_separating (word : Parser (List Token)) (hs : rules.spacing ≠ .content) :
    unit word rules.separating = unit word rules := by
  unfold unit
  rw [literalChar_separating hs]
  rfl

theorem firstUnit_separating (word : Parser (List Token)) (hs : rules.spacing ≠ .content) :
    firstUnit word rules.separating = firstUnit word rules := by
  unfold firstUnit
  rw [unit_separating word hs]
  rfl

theorem run_laterUnit_separating (hs : rules.spacing ≠ .content) {item : List Token} :
    run (laterUnit word rules.separating) s = some (item, r) ↔
      ∃ gap m parts, run blanks s = some (gap, m) ∧ run (unit word rules) m = some (parts, r) ∧
        item = blankTokens gap ++ parts := by
  have gap : gapBefore rules.separating = blanks := if_pos rfl
  rw [run_laterUnit_eq_some, unit_separating word hs, gap]

/-- At the end of the text no unit is read. -/
theorem run_laterUnit_nil (hs : rules.spacing ≠ .content) :
    run (laterUnit word rules.separating) [] = none := by
  rw [Option.eq_none_iff_forall_ne_some]
  rintro ⟨item, r⟩ read
  obtain ⟨gap, t, parts, hg, hu, -⟩ := (run_laterUnit_separating hs).mp read
  obtain ⟨-, rfl⟩ : gap = [] ∧ t = [] := by
    have split := (run_takeWhile_eq_some hg).2.2
    simpa using split.symm
  rw [run_unit_nil] at hu
  cases hu

/-- No unit begins with white space or a line end. -/
theorem exists_head_of_unit (he : IsEscape rules.escape) (hs : rules.spacing ≠ .content)
    {item : List Token} (h : run (unit word rules) s = some (item, r)) :
    ∃ c m, s = c :: m ∧ isInlineBlank c = false ∧ isLineEnd c = false := by
  obtain ⟨breaks, t, part, all, -, rfl, hp, -⟩ := run_unit_eq_some.mp h
  have escape := And.intro he.not_isInlineBlank he.not_isLineEnd
  cases breaks with
  | cons k breaks =>
    obtain ⟨gap, ending, -, -, rfl⟩ := all k List.mem_cons_self
    rw [breaksText_cons, render_broken]
    exact ⟨_, _, rfl, escape⟩
  | nil =>
    rw [breaksText_nil, List.nil_append]
    rcases run_unitPart_eq_some.mp hp with ⟨found, hf, -⟩ | ⟨-, hc⟩
    · have starts : startsReference t = true := by
        rw [← Bool.not_eq_false]
        intro not
        rw [run_referenceWith_of_not not] at hf
        cases hf
      obtain ⟨d, m, rfl, -⟩ := startsReference_iff.mp starts
      exact ⟨_, _, rfl, by decide, by decide⟩
    · rcases run_characterPart_eq_some.mp hc with ⟨c, plain, rfl, -⟩ | ⟨-, t', ht, -⟩
      · obtain ⟨-, inLine, -, blank, -⟩ := startsPlain_cons.mp plain
        refine ⟨c, r, rfl, ?_, inLine⟩
        rw [← Bool.not_eq_true]
        exact fun isBlank => hs (blank isBlank)
      · obtain ⟨d, -, -, -, rfl⟩ := run_escapedChar_eq_some.mp ht
        exact ⟨_, _, rfl, escape⟩

/-- Units that follow one another without white space are later units. -/
theorem steps_laterUnit (he : IsEscape rules.escape) (hs : rules.spacing ≠ .content)
    (steps : Steps (unit word rules) s items r) :
    Steps (laterUnit word rules.separating) s items r := by
  induction steps with
  | nil => exact .nil _
  | cons first shorter _ ih =>
    obtain ⟨c, m, rfl, notBlank, -⟩ := exists_head_of_unit he hs first
    have noGap : run blanks (c :: m) = some ([], c :: m) :=
      run_takeWhile_append (s := []) (List.forall_mem_nil _) (by simpa using notBlank)
    exact .cons ((run_laterUnit_separating hs).mpr ⟨[], _, _, noGap, first, rfl⟩) shorter ih

end Units

/-! ## What is read -/

section Soundness

variable {word : Parser (List Token)} [Regular word] {rules : ContentRules} {s r : Text}

/-- One more part before a text that is a word up to its first stretch. -/
theorem exists_of_unitPart (hw : ReadsWords rules.escape word) {part : Token} {xs ts : List Token}
    {stretches : List Stretch} (merged : mergeStrings xs = mergeStrings ts ++ tokensAll stretches)
    (suffix : Suffix rules (mergeStrings ts))
    (h : run (unitPart word rules) s = some (part, Token.renderAll xs ++ r)) :
    ∃ t others, mergeStrings (part :: ts) = t :: others ∧ t.isBreak = false ∧
      Suffix rules (t :: others) ∧
      mergeStrings (part :: xs) = t :: others ++ tokensAll stretches := by
  have text : Token.renderAll xs ++ r =
      Token.renderAll (mergeStrings ts) ++ (Token.renderAll (tokensAll stretches) ++ r) := by
    rw [← renderAll_mergeStrings xs, merged, Token.renderAll_append, List.append_assoc]
  rw [text] at h
  obtain ⟨t, others, eq, notBreak, suffix⟩ := suffix_of_unitPart hw h suffix
  refine ⟨t, others, eq, notBreak, suffix, ?_⟩
  rw [← eq]
  exact mergeStrings_cons_append merged (head_tokensAll stretches) part

/-- Later units are the end of a word and then stretches. -/
theorem exists_of_steps (hs : rules.spacing ≠ .content) (hw : ReadsWords rules.escape word)
    (lossless : Lossless word Token.renderAll) {items : List (List Token)}
    (steps : Steps (laterUnit word rules.separating) s items r) :
    ∃ ts stretches, mergeStrings items.flatten = mergeStrings ts ++ tokensAll stretches ∧
      Suffix rules (mergeStrings ts) ∧ ∀ s ∈ stretches, s.WellFormed rules := by
  -- from the last unit to the first: each stands before the end of a word, or it begins a stretch
  induction steps with
  | nil => exact ⟨[], [], rfl, Suffix.nil, List.forall_mem_nil _⟩
  | @cons s m r item items first _ rest ih =>
    obtain ⟨ts, stretches, merged, suffix, formed⟩ := ih
    obtain ⟨gap, t, parts, hg, hu, rfl⟩ := (run_laterUnit_separating hs).mp first
    obtain ⟨breaks, t', part, all, -, -, hp, rfl⟩ := run_unit_eq_some.mp hu
    have behind : m = Token.renderAll items.flatten ++ r := by
      rw [renderAll_flatten]
      exact (lossless_laterUnit lossless rules.separating).steps rest
    rw [behind] at hp
    obtain ⟨u, others, eq, notBreak, suffix, merged⟩ := exists_of_unitPart hw merged suffix hp
    rw [List.flatten_cons, List.append_assoc, List.append_assoc, List.singleton_append]
    cases gap with
    | nil =>
      refine ⟨breaks.map Continuation.toToken ++ part :: ts, stretches, ?_, ?_, formed⟩
      · show mergeStrings (breaks.map Continuation.toToken ++ part :: items.flatten) = _
        rw [mergeStrings_breaks, mergeStrings_breaks, merged, eq, List.append_assoc]
      · rw [mergeStrings_breaks, eq]
        exact suffix.breaks (List.cons_ne_nil u others) all
    | cons c gap =>
      have isWord : Word rules (u :: others) := by
        refine suffix.word fun v hv => ?_
        cases hv
        exact notBreak
      let stretch : Stretch := ⟨c :: gap, breaks, Token.renderAll (u :: others), u :: others⟩
      have here : stretch.WellFormed rules := ⟨List.cons_ne_nil c gap,
        (run_takeWhile_eq_some hg).1, all, rfl, isWord, List.cons_ne_nil u others⟩
      refine ⟨[], stretch :: stretches, ?_, Suffix.nil,
        List.forall_mem_cons.mpr ⟨here, formed⟩⟩
      show .whitespace (c :: gap) ::
        mergeStrings (breaks.map Continuation.toToken ++ part :: items.flatten) = _
      rw [mergeStrings_breaks, merged]
      simp [stretch, tokens, mergeStrings]

/-- What is read is a word and stretches. -/
theorem exists_stretches_of_run (hs : rules.spacing ≠ .content) {ts : List Token}
    (h : run (content rules.separating) s = some (ts, r)) :
    ∃ first stretches, Word rules first ∧ first ≠ [] ∧
      (∀ s ∈ stretches, Stretch.WellFormed rules s) ∧ ts = first ++ tokensAll stretches := by
  have hw : ReadsWords rules.escape (content (.word rules.escape)) :=
    readsWords_content rules.escape
  have lossless := lossless_content (.word rules.escape)
  rw [content_eq] at h
  obtain ⟨item, m, hf, h⟩ := run_bind_eq_some.mp h
  obtain ⟨items, m', hi, h⟩ := run_bind_eq_some.mp h
  obtain ⟨rfl, rfl⟩ := run_pure_eq_some.mp h
  obtain ⟨steps, -⟩ := run_many_eq_some.mp hi
  rw [firstUnit_separating _ hs] at hf
  obtain ⟨part, rfl, hp⟩ := part_of_firstUnit hf
  have behind : m = Token.renderAll items.flatten ++ r := by
    rw [renderAll_flatten]
    exact (lossless_laterUnit lossless rules.separating).steps steps
  rw [behind] at hp
  obtain ⟨ts, stretches, merged, suffix, formed⟩ := exists_of_steps hs hw lossless steps
  obtain ⟨u, others, -, notBreak, suffix, merged⟩ := exists_of_unitPart hw merged suffix hp
  refine ⟨u :: others, stretches, suffix.word fun v hv => ?_, List.cons_ne_nil u others, formed,
    merged⟩
  cases hv
  exact notBreak

end Soundness

/-! ## What may be read -/

section Completeness

variable {word : Parser (List Token)} [Regular word] {rules : ContentRules}

theorem not_isVariableNameChar_of_isInlineBlank {c : Char} (h : isInlineBlank c = true) :
    isVariableNameChar c = false := by
  rw [← Bool.not_eq_true]
  intro isName
  rw [isInlineBlank, not_isBlank_of_isVariableNameChar isName] at h
  cases h

/-- White space ends content, and no line ends before what is within the line. -/
theorem boundary_blanks {gap : Text} (nonempty : gap ≠ [])
    (blank : ∀ c ∈ gap, isInlineBlank c = true) {c : Char} (notBlank : isInlineBlank c = false)
    (inLine : isLineEnd c = false) (t : Text) (ts : List Token) :
    Boundary ts (gap ++ c :: t) := by
  refine ⟨fun d hd => ?_, fun broken => ?_⟩
  · obtain ⟨d', gap, rfl⟩ := List.exists_cons_of_ne_nil nonempty
    obtain rfl : d' = d := Option.some.inj hd
    have isBlank := blank d' List.mem_cons_self
    refine ⟨not_isVariableNameChar_of_isInlineBlank isBlank, ?_⟩
    rintro rfl
    exact absurd isBlank (by decide)
  · have goesOn : breaksLine (gap ++ c :: t) = false := by
      refine breaksLine_append_eq_false
        (fun d hd => not_isLineEnd_of_isInlineBlank (blank d hd)) fun broken => ?_
      rw [breaksLine_of_head notBlank inLine] at broken
      cases broken
    rw [goesOn] at broken
    cases broken

/-- The units of a word stand for later units, and white space may stand before the first. -/
theorem Stretch.WellFormed.steps (he : IsEscape rules.escape) (hs : rules.spacing ≠ .content)
    {s : Stretch} (h : s.WellFormed rules) (refs : ReadsReferences word s.word) {r : Text}
    (boundary : Boundary s.word r) :
    (∀ ts, Boundary ts (Token.renderAll s.tokens ++ r)) ∧
    ∃ items, Steps (laterUnit word rules.separating) (Token.renderAll s.tokens ++ r) items r ∧
      ∀ {us vs : List Token}, mergeStrings us = vs → (∀ more, vs.head? ≠ some (.string more)) →
        mergeStrings (items.flatten ++ us) = s.tokens ++ vs := by
  obtain ⟨gap, breaks, source, parts⟩ := s
  obtain ⟨items, steps, merged⟩ := h.word.suffix.steps he refs boundary h.breaks
    fun none => absurd none h.nonempty
  have text : Token.renderAll (Stretch.tokens ⟨gap, breaks, source, parts⟩) ++ r =
      gap ++ (breaksText breaks ++ (Token.renderAll parts ++ r)) := by
    simp [tokens, breaksText]
  rw [text]
  dsimp only at steps merged
  cases items with
  | nil =>
    have none : parts = [] := (List.append_eq_nil_iff.mp merged.symm).2
    exact absurd none h.nonempty
  | cons item items =>
    cases steps with
    | @cons _ m _ _ _ first shorter rest =>
      obtain ⟨c, t, behind, notBlank, inLine⟩ := exists_head_of_unit he hs first
      have gapRead : run blanks (gap ++ (breaksText breaks ++ (Token.renderAll parts ++ r))) =
          some (gap, breaksText breaks ++ (Token.renderAll parts ++ r)) :=
        run_takeWhile_append h.blank (by simpa [behind] using notBlank)
      have read := (run_laterUnit_separating hs).mpr ⟨gap, _, item, gapRead, first, rfl⟩
      refine ⟨?_, (blankTokens gap ++ item) :: items,
        .cons read ?_ (steps_laterUnit he hs rest), fun last notString => ?_⟩
      · rw [behind]
        exact boundary_blanks h.gap h.blank notBlank inLine t
      · rw [List.length_append]
        omega
      · obtain ⟨d, gap, rfl⟩ := List.exists_cons_of_ne_nil h.gap
        have flat : ((blankTokens (d :: gap) ++ item) :: items).flatten =
            .whitespace (d :: gap) :: (item :: items).flatten := by
          simp [blankTokens]
        rw [flat]
        show .whitespace (d :: gap) :: mergeStrings ((item :: items).flatten ++ _) = _
        rw [mergeStrings_append_of_head last notString, merged]
        simp [tokens]

theorem steps_of_stretches (he : IsEscape rules.escape) (hs : rules.spacing ≠ .content)
    {stretches : List Stretch} (formed : ∀ s ∈ stretches, Stretch.WellFormed rules s)
    (refs : ∀ s ∈ stretches, ReadsReferences word s.word) :
    (∀ ts, Boundary ts (Token.renderAll (tokensAll stretches))) ∧
    ∃ items, Steps (laterUnit word rules.separating)
        (Token.renderAll (tokensAll stretches)) items [] ∧
      mergeStrings items.flatten = tokensAll stretches := by
  induction stretches with
  | nil => exact ⟨boundary_nil, [], .nil [], rfl⟩
  | cons s stretches ih =>
    obtain ⟨first, others⟩ := List.forall_mem_cons.mp formed
    obtain ⟨refs, refs'⟩ := List.forall_mem_cons.mp refs
    obtain ⟨boundary, later, steps', merged'⟩ := ih others refs'
    obtain ⟨before, items, steps, merged⟩ := first.steps he hs refs (boundary s.word)
    rw [tokensAll_cons, Token.renderAll_append]
    refine ⟨before, items ++ later, steps.append steps', ?_⟩
    rw [List.flatten_append]
    exact merged merged' (head_tokensAll stretches)

/-- A word and stretches are read as they are. -/
theorem run_content_of_stretches (he : IsEscape rules.escape) (hs : rules.spacing ≠ .content)
    {first : List Token} (isWord : Word rules first) (nonempty : first ≠ [])
    {stretches : List Stretch} (formed : ∀ s ∈ stretches, Stretch.WellFormed rules s) :
    run (content rules.separating) (Token.renderAll (first ++ tokensAll stretches)) =
      some (first ++ tokensAll stretches, []) := by
  obtain ⟨boundary, later, steps', merged'⟩ := steps_of_stretches he hs formed
    fun s hs => (formed s hs).word.readsReferences he
  obtain ⟨items, steps, merged, unbroken⟩ := isWord.steps he (isWord.readsReferences he)
    (boundary first)
  rw [Token.renderAll_append]
  cases items with
  | nil => exact absurd merged.symm nonempty
  | cons item items =>
    cases steps with
    | cons read _ rest =>
      rw [content_eq, contentWith, firstUnit_separating _ hs]
      refine run_bind_eq_some.mpr
        ⟨item, _, run_firstUnit_eq_some.mpr ⟨unbroken nonempty, read⟩, ?_⟩
      have all := run_many_of_steps ((steps_laterUnit he hs rest).append steps')
        (run_many_of_none (run_laterUnit_nil hs))
      refine run_bind_eq_some.mpr ⟨_, [], all, ?_⟩
      have flat : item ++ (items ++ later ++ []).flatten =
          (item :: items).flatten ++ later.flatten := by
        simp
      rw [run_pure, flat, mergeStrings_append_of_head merged' (head_tokensAll stretches), merged]

end Completeness

/-! ## Literals -/

variable {e : Char} {excluded : List Char}

/-- What a literal is where white space separates content from content: between quotes it is as it
is elsewhere, and without quotes it is a word and stretches. -/
def Literal.Separated (e : Char) (excluded : List Char) (l : Literal) : Prop :=
  match l.quote with
  | some quote => Word (.quoted e quote) l.children
  | none => ∃ first stretches, Word (.bare e .ends excluded) first ∧ first ≠ [] ∧
      (∀ s ∈ stretches, Stretch.WellFormed (.bare e .ends excluded) s) ∧
      l.children = first ++ tokensAll stretches

theorem run_literalContent_separates {quote : Option Quote} {s r : Text} {ts : List Token}
    (h : run (literalContent e .separates excluded quote) s = some (ts, r)) :
    Literal.Separated e excluded ⟨quote, ts⟩ := by
  cases quote with
  | some quote =>
    -- within quotes it does not matter what white space does outside
    have read : run (literalContent e .ends excluded (some quote)) s = some (ts, r) := h
    exact run_literalContent_sound (by decide) read
  | none => exact exists_stretches_of_run (by simp [ContentRules.bare]) h

theorem Literal.Separated.run_literal (he : IsEscape e) {l : Literal}
    (h : l.Separated e excluded) :
    run (literal e .separates excluded) l.render = some (l, []) := by
  obtain ⟨quote, ts⟩ := l
  refine run_bind_eq_some.mpr ⟨(quote, ts), [], ?_, rfl⟩
  rw [Literal.render_eq]
  cases quote with
  | some quote =>
    have read := run_inOptionalQuotes_quoted (run_literalContent_quoted he .separates excluded h [])
    simpa [Quote.mark] using read
  | none =>
    obtain ⟨first, stretches, isWord, nonempty, formed, rfl⟩ := h
    have read := run_content_of_stretches he (by simp [ContentRules.bare]) isWord nonempty formed
    have notQuote := isWord.head_ne_quote he nonempty (Token.renderAll (tokensAll stretches))
    rw [← Token.renderAll_append] at notQuote
    simpa [Quote.mark] using run_inOptionalQuotes_bare notQuote read

/-- Where white space separates, what reads as a literal is what such a literal is made of. -/
theorem complete_literal_separates_eq_ok (he : IsEscape e) {text : Text} {l : Literal} :
    complete (literal e .separates excluded) text = .ok l ↔
      l.render = text ∧ l.Separated e excluded := by
  rw [complete_eq_ok]
  constructor
  · intro h
    have whole : text = l.render ++ [] := (lossless_literal ..).append_eq h
    obtain ⟨⟨quote, children⟩, m, hq, h⟩ := run_bind_eq_some.mp h
    obtain ⟨rfl, rfl⟩ := run_pure_eq_some.mp h
    obtain ⟨t, hc, -⟩ := run_inOptionalQuotes_sound hq
    exact ⟨by rw [whole, List.append_nil], run_literalContent_separates hc⟩
  · rintro ⟨rfl, separated⟩
    exact separated.run_literal he

/-! ## Texts without quotes -/

namespace Stretch

/-- The source text of the stretch. -/
def source (s : Stretch) : Text := s.gap ++ breaksText s.breaks ++ s.text

/-- The value of the stretch: line continuations have none. -/
def value (s : Stretch) : Text := s.gap ++ Literal.value ⟨none, s.word⟩

/-- There is white space, and the text behind it and the line continuations is accepted where white
space ends the content. -/
structure IsRead (e : Char) (excluded : List Char) (s : Stretch) : Prop where
  gap : s.gap ≠ []
  blank : ∀ c ∈ s.gap, isInlineBlank c = true
  breaks : ∀ k ∈ s.breaks, k.IsBreak e
  read : complete (literalContent e .ends excluded none) s.text = .ok s.word

end Stretch

/-- Where white space ends the content, what is read is a word. -/
theorem complete_literalContent_bare (he : IsEscape e) {p : Text} {word : List Token} :
    complete (literalContent e .ends excluded none) p = .ok word ↔
      Token.renderAll word = p ∧ Word (.bare e .ends excluded) word ∧ word ≠ [] := by
  rw [complete_eq_ok]
  constructor
  · intro read
    have whole : p = Token.renderAll word ++ [] := (lossless_content _).append_eq read
    exact ⟨by rw [whole, List.append_nil], run_content_sound (by simp [ContentRules.bare]) read⟩
  · rintro ⟨rfl, isWord, nonempty⟩
    have wellFormed : Literal.WellFormed e .ends excluded ⟨none, word⟩ := ⟨isWord, nonempty⟩
    exact wellFormed.run_content he (by decide) nonempty

theorem Stretch.isRead_iff (he : IsEscape e) {s : Stretch} :
    s.IsRead e excluded ↔ s.WellFormed (.bare e .ends excluded) := by
  constructor
  · intro h
    obtain ⟨text, word, nonempty⟩ := (complete_literalContent_bare he).mp h.read
    exact ⟨h.gap, h.blank, h.breaks, text, word, nonempty⟩
  · intro h
    exact ⟨h.gap, h.blank, h.breaks,
      (complete_literalContent_bare he).mpr ⟨h.text, h.word, h.nonempty⟩⟩

theorem Stretch.renderAll_tokensAll {stretches : List Stretch}
    (formed : ∀ s ∈ stretches, s.WellFormed (.bare e .ends excluded)) :
    Token.renderAll (tokensAll stretches) = stretches.flatMap source := by
  induction stretches with
  | nil => rfl
  | cons s stretches ih =>
    obtain ⟨first, others⟩ := List.forall_mem_cons.mp formed
    rw [tokensAll_cons, Token.renderAll_append, ih others, List.flatMap_cons, source, ← first.text]
    simp [tokens, breaksText]

theorem Stretch.valueAll_tokensAll (stretches : List Stretch) :
    Token.valueAll (tokensAll stretches) = stretches.flatMap value := by
  induction stretches with
  | nil => rfl
  | cons s stretches ih =>
    rw [tokensAll_cons, Token.valueAll_append, ih, List.flatMap_cons, tokens, Token.valueAll,
      valueAll_breaks]
    rfl

theorem Word.getLast?_ne_whitespace {rules : ContentRules} {ts : List Token} (h : Word rules ts)
    (gap : Text) : ts.getLast? ≠ some (.whitespace gap) := by
  intro last
  cases h.parts _ (List.mem_of_getLast? last)

/-- The last token is no white space. -/
theorem Stretch.getLast?_ne_whitespace {rules : ContentRules} {first : List Token}
    (isWord : Word rules first) {stretches : List Stretch}
    (formed : ∀ s ∈ stretches, s.WellFormed rules) (gap : Text) :
    (first ++ tokensAll stretches).getLast? ≠ some (.whitespace gap) := by
  rcases List.eq_nil_or_concat stretches with rfl | ⟨others, s, rfl⟩
  · rw [tokensAll_nil, List.append_nil]
    exact isWord.getLast?_ne_whitespace gap
  · have last := formed s (by simp)
    have split : first ++ tokensAll (others ++ [s]) =
        first ++ tokensAll others ++ .whitespace s.gap :: s.breaks.map Continuation.toToken ++
          s.word := by
      simp [tokensAll, tokens]
    rw [List.concat_eq_append, split, List.getLast?_append_of_ne_nil _ last.nonempty]
    exact last.word.getLast?_ne_whitespace gap

/-- What is read before any rest. -/
theorem Stretch.exists_of_run (he : IsEscape e) {t r : Text} {ts : List Token}
    (h : run (literalContent e .separates excluded none) t = some (ts, r)) :
    ∃ p first stretches, complete (literalContent e .ends excluded none) p = .ok first ∧
      (∀ s ∈ stretches, Stretch.IsRead e excluded s) ∧
      t = p ++ stretches.flatMap Stretch.source ++ r ∧ ts = first ++ tokensAll stretches ∧
      ∀ gap, ts.getLast? ≠ some (.whitespace gap) := by
  have read : run (content (ContentRules.bare e .ends excluded).separating) t = some (ts, r) := h
  obtain ⟨first, stretches, isWord, nonempty, formed, rfl⟩ :=
    exists_stretches_of_run (by simp [ContentRules.bare]) read
  refine ⟨Token.renderAll first, first, stretches,
    (complete_literalContent_bare he).mpr ⟨rfl, isWord, nonempty⟩,
    fun s hs => (isRead_iff he).mpr (formed s hs), ?_, rfl, getLast?_ne_whitespace isWord formed⟩
  have whole : t = Token.renderAll (first ++ tokensAll stretches) ++ r :=
    (lossless_content _).append_eq read
  rw [whole, Token.renderAll_append, renderAll_tokensAll formed]

/-- Without quotes, and where white space separates content from content, a text is accepted if and
only if it is made of texts that are accepted where white space ends the content, with white space
before each but the first and perhaps line continuations behind the white space. Its value is made
of the values of these texts and of the white space. Before any rest, what is read is made in the
same way, so that no white space is taken unless content follows it. -/
theorem separated_content_is_joined (he : IsEscape e) (excluded : List Char) :
    (∀ (t : Text) (ts : List Token),
      complete (literalContent e .separates excluded none) t = .ok ts ↔
        ∃ p first stretches, complete (literalContent e .ends excluded none) p = .ok first ∧
          (∀ s ∈ stretches, Stretch.IsRead e excluded s) ∧
          t = p ++ stretches.flatMap Stretch.source ∧ ts = first ++ tokensAll stretches) ∧
    (∀ (first : List Token) (stretches : List Stretch),
      Literal.value ⟨none, first ++ tokensAll stretches⟩ =
        Literal.value ⟨none, first⟩ ++ stretches.flatMap Stretch.value) ∧
    ∀ (t r : Text) (ts : List Token),
      run (literalContent e .separates excluded none) t = some (ts, r) →
        ∃ p first stretches, complete (literalContent e .ends excluded none) p = .ok first ∧
          (∀ s ∈ stretches, Stretch.IsRead e excluded s) ∧
          t = p ++ stretches.flatMap Stretch.source ++ r ∧ ts = first ++ tokensAll stretches ∧
          ∀ gap, ts.getLast? ≠ some (.whitespace gap) := by
  refine ⟨fun t ts => ⟨fun h => ?_, ?_⟩, fun first stretches => ?_, fun t r ts h => ?_⟩
  · obtain ⟨p, first, stretches, read, all, text, tokens, -⟩ :=
      Stretch.exists_of_run he (complete_eq_ok.mp h)
    exact ⟨p, first, stretches, read, all, by rw [text, List.append_nil], tokens⟩
  · rintro ⟨p, first, stretches, read, all, rfl, rfl⟩
    obtain ⟨rfl, isWord, nonempty⟩ := (complete_literalContent_bare he).mp read
    have formed : ∀ s ∈ stretches, s.WellFormed (.bare e .ends excluded) :=
      fun s hs => (Stretch.isRead_iff he).mp (all s hs)
    rw [complete_eq_ok, ← Stretch.renderAll_tokensAll formed, ← Token.renderAll_append]
    exact run_content_of_stretches he (by simp [ContentRules.bare]) isWord nonempty formed
  · show Token.valueAll _ = Token.valueAll first ++ _
    rw [Token.valueAll_append, Stretch.valueAll_tokensAll]
  · exact Stretch.exists_of_run he h

/-- `a` and, behind white space and a line continuation, `b` are read together, with the value
`a  b`. Of `a ` with nothing behind it, the white space is not taken. -/
theorem separated_content_is_joined_sample :
    let ts : List Token := [.string ['a'], .whitespace [' ', ' '],
      (Continuation.broken '\\' [] ['\n']).toToken, .string ['b']]
    complete (literalContent '\\' .separates [':'] none) "a  \\\nb".toList = .ok ts ∧
      Literal.value ⟨none, ts⟩ = "a  b".toList ∧
      ∃ ts', run (literalContent '\\' .separates [':'] none) "a ".toList = some (ts', [' ']) ∧
        ∀ gap, ts'.getLast? ≠ some (.whitespace gap) := by
  obtain ⟨joined, value, taken⟩ := @separated_content_is_joined '\\' (.inl rfl) [':']
  let behind : Stretch := ⟨[' ', ' '], [.broken '\\' [] ['\n']], ['b'], [.string ['b']]⟩
  have read : behind.IsRead '\\' [':'] := by
    have isBreak : (Continuation.broken '\\' [] ['\n']).IsBreak '\\' :=
      ⟨[], ['\n'], List.forall_mem_nil _, by decide, rfl⟩
    exact ⟨List.cons_ne_nil _ _, List.all_eq_true.mp rfl, List.forall_mem_singleton.mpr isBreak,
      complete_eq_ok.mpr (by decide +kernel)⟩
  have first : complete (literalContent '\\' .ends [':'] none) ['a'] = .ok [.string ['a']] :=
    complete_eq_ok.mpr (by decide +kernel)
  refine ⟨?_, value [.string ['a']] [behind], [.string ['a']], by decide +kernel, ?_⟩
  · exact (joined _ _).mpr ⟨['a'], [.string ['a']], [behind], first,
      List.forall_mem_singleton.mpr read, rfl, rfl⟩
  · obtain ⟨-, -, -, -, -, -, -, last⟩ :=
      taken "a ".toList [' '] [.string ['a']] (by decide +kernel)
    exact last

end DockerfileSyntax
