import DockerfileSyntax.Proofs.Names

/-!
# What follows the arguments of an instruction

Behind its arguments an instruction has white space, a line continuation, a line end and comments,
all of them optional. An edit leaves this text alone, but it may come to stand behind another name
or another value, so what matters is how it begins: `Trail` lists the ways, and for each of them it
is known whether a name or a value goes on there.

Results:
1. `trail_of_run`: what was read to the end of a text is a trail.
2. `Trail.run_laterChar`: a name does not go on in a trail.
3. `Trail.run_unit`, `Trail.exists_run_unit`: a value goes on in a trail if and only if a comment
   stands right there or on the next line of the instruction.
-/

namespace DockerfileSyntax

namespace Grammar

open DockerfileSyntax.Parser

theorem run_optionalNewLine_eq_some {s r : Text} {ts : List Trivia} :
    run optionalNewLine s = some (ts, r) ↔
      (∃ nl ∈ lineEnds, ts = [.newLine nl] ∧ s = nl ++ r) ∨
      (ts = [] ∧ r = s ∧ run newLine s = none) := by
  rw [optionalNewLine, run_optional_bind_eq_some]
  constructor
  · rintro (⟨nl, m, hn, h⟩ | ⟨hn, h⟩)
    · obtain ⟨rfl, rfl⟩ := run_pure_eq_some.mp h
      obtain ⟨isEnd, rfl⟩ := run_newLine_eq_some.mp hn
      exact .inl ⟨nl, isEnd, rfl, rfl⟩
    · obtain ⟨rfl, rfl⟩ := run_pure_eq_some.mp h
      exact .inr ⟨rfl, rfl, hn⟩
  · rintro (⟨nl, isEnd, rfl, rfl⟩ | ⟨rfl, rfl, hn⟩)
    · exact .inl ⟨nl, r, run_newLine_eq_some.mpr ⟨isEnd, rfl⟩, rfl⟩
    · exact .inr ⟨hn, rfl⟩

theorem run_blankRun_sound {s r : Text} {ts : List Trivia} (h : run blankRun s = some (ts, r)) :
    ∃ gap, (∀ c ∈ gap, isInlineBlank c = true) ∧
      (∀ c, r.head? = some c → isInlineBlank c = false) ∧ s = gap ++ r ∧
      ts = Trivia.ofBlanks gap := by
  obtain ⟨gap, m, hg, h⟩ := run_bind_eq_some.mp h
  obtain ⟨rfl, rfl⟩ := run_pure_eq_some.mp h
  obtain ⟨blank, stop, rfl⟩ := run_takeWhile_eq_some hg
  exact ⟨gap, blank, stop, rfl, rfl⟩

theorem run_optionalContinuation_sound {e : Char} {s r : Text} {ts : List Trivia}
    (h : run (optionalContinuation e) s = some (ts, r)) :
    (ts = [] ∧ s = r) ∨
      ∃ k : Continuation, k.IsBreak e ∧ ts = [.continuation k] ∧ s = k.toToken.render ++ r := by
  rw [optionalContinuation, run_optional_bind_eq_some] at h
  rcases h with ⟨k, m, hk, h⟩ | ⟨-, h⟩
  · obtain ⟨rfl, rfl⟩ := run_pure_eq_some.mp h
    obtain ⟨isBreak, hs, -⟩ := isBreak_of_run hk
    exact .inr ⟨k, isBreak, rfl, hs⟩
  · obtain ⟨rfl, rfl⟩ := run_pure_eq_some.mp h
    exact .inl ⟨rfl, rfl⟩

theorem head_of_run_comment {s r text : Text} (h : run comment s = some (text, r)) :
    ∃ m, s = '#' :: m := by
  obtain ⟨o, m, ho, h⟩ := run_bind_eq_some.mp h
  rw [run_peek] at ho
  cases ho
  split at h
  · next first =>
    obtain ⟨t, ht⟩ := List.head?_eq_some_iff.mp first
    exact ⟨t, ht⟩
  · cases h

end Grammar

open Grammar DockerfileSyntax.Parser

/-! ## How a trail begins -/

/-- The trivia begin with a line end. -/
def startsNewLine : List Trivia → Bool
  | .newLine _ :: _ => true
  | _ => false

/-- The trivia begin with a line end, or with white space and a line end. -/
def startsLine : List Trivia → Bool
  | .whitespace _ :: ts => startsNewLine ts
  | ts => startsNewLine ts

/-- The trivia begin with a comment. -/
def startsComment : List Trivia → Bool
  | .comment _ :: _ => true
  | _ => false

/-- The trivia begin with a comment, or with a line continuation and a comment. -/
def gluesComment : List Trivia → Bool
  | .continuation _ :: ts => startsComment ts
  | ts => startsComment ts

/-- How a trail begins that does not begin with a line continuation: the text, and the trivia. -/
inductive Opening : Text → List Trivia → Prop
  | nil : Opening [] []
  | blank {c : Char} {gap m : Text} {ts : List Trivia} :
      (∀ d ∈ c :: gap, isInlineBlank d = true) → breaksLine m = startsNewLine ts →
      Opening (c :: gap ++ m) (.whitespace (c :: gap) :: ts)
  | newLine {nl m : Text} {ts : List Trivia} :
      nl ∈ lineEnds → Opening (nl ++ m) (.newLine nl :: ts)
  | comment {m text : Text} {ts : List Trivia} : Opening ('#' :: m) (.comment text :: ts)

/-- How a trail begins. -/
inductive Trail (e : Char) : Text → List Trivia → Prop
  | opening {m : Text} {ts : List Trivia} : Opening m ts → Trail e m ts
  | broken {k : Continuation} {m : Text} {ts : List Trivia} :
      k.IsBreak e → Opening m ts → Trail e (k.toToken.render ++ m) (.continuation k :: ts)

theorem breaksLine_blanks {gap m : Text} (h : ∀ c ∈ gap, isInlineBlank c = true) :
    breaksLine (gap ++ m) = breaksLine m := by
  induction gap with
  | nil => rfl
  | cons c gap ih =>
    obtain ⟨first, others⟩ := List.forall_mem_cons.mp h
    rw [List.cons_append, breaksLine_cons first, ih others]

theorem Opening.breaksLine_eq {m : Text} {ts : List Trivia} (h : Opening m ts) :
    breaksLine m = startsLine ts := by
  cases h with
  | nil => rfl
  | blank all same => rw [breaksLine_blanks all, same]; rfl
  | newLine isEnd => exact @breaksLine_append [] _ (by simp) isEnd _
  | comment => exact breaksLine_of_head (by decide) (by decide)

/-- White space before an opening, or before a line continuation. -/
theorem Opening.of_blanks {gap m : Text} {ts : List Trivia}
    (all : ∀ c ∈ gap, isInlineBlank c = true) (nonempty : gap ≠ [])
    (same : breaksLine m = startsNewLine ts) : Opening (gap ++ m) (Trivia.ofBlanks gap ++ ts) := by
  obtain ⟨c, gap, rfl⟩ := List.exists_cons_of_ne_nil nonempty
  exact .blank all same

theorem Opening.startsNewLine_eq {m : Text} {ts : List Trivia} (h : Opening m ts)
    (notBlank : ∀ c, m.head? = some c → isInlineBlank c = false) :
    breaksLine m = startsNewLine ts := by
  rw [h.breaksLine_eq]
  cases h with
  | blank all same =>
    have := notBlank _ rfl
    rw [all _ List.mem_cons_self] at this
    cases this
  | nil => rfl
  | newLine _ => rfl
  | comment => rfl

theorem Opening.exists_of_startsComment {m : Text} {ts : List Trivia} (h : Opening m ts)
    (comment : startsComment ts = true) : ∃ r, m = '#' :: r := by
  cases h with
  | nil => cases comment
  | blank _ _ => cases comment
  | newLine _ => cases comment
  | @comment r _ _ => exact ⟨r, rfl⟩

/-- An opening has no line continuation before its comment. -/
theorem Opening.gluesComment_eq {m : Text} {ts : List Trivia} (h : Opening m ts) :
    gluesComment ts = startsComment ts := by
  cases h <;> rfl

theorem opening_of_trailingComments {m : Text} {ts : List Trivia}
    (h : run trailingComments m = some (ts, [])) : Opening m ts := by
  obtain ⟨lines, m', hl, h⟩ := run_bind_eq_some.mp h
  obtain ⟨rfl, rfl⟩ := run_pure_eq_some.mp h
  -- the first comment line says how the text begins: with white space, a line end or the comment
  cases (run_many_eq_some.mp hl).1 with
  | nil => exact .nil
  | @cons _ m' _ line lines first _ _ =>
    rw [commentLine, run_attempt] at first
    obtain ⟨leading, s, hw, first⟩ := run_bind_eq_some.mp first
    obtain ⟨text, s', hc, first⟩ := run_bind_eq_some.mp first
    obtain ⟨more, s₂, -, first⟩ := run_bind_eq_some.mp first
    obtain ⟨rfl, rfl⟩ := run_pure_eq_some.mp first
    obtain ⟨gap, t, hg, hw⟩ := run_bind_eq_some.mp hw
    obtain ⟨nl, t', hn, hw⟩ := run_bind_eq_some.mp hw
    obtain ⟨rfl, rfl⟩ := run_pure_eq_some.mp hw
    obtain ⟨blank, stop, rfl⟩ := run_takeWhile_eq_some hg
    obtain ⟨k, rfl⟩ := head_of_run_comment hc
    have behind : Opening t (nl ++ (.comment text :: more ++ lines.flatten)) := by
      rcases run_optionalNewLine_eq_some.mp hn with ⟨nl, isEnd, rfl, rfl⟩ | ⟨rfl, rfl, -⟩
      · exact .newLine isEnd
      · exact .comment
    rw [List.flatten_cons, List.append_assoc, List.append_assoc]
    by_cases nonempty : gap = []
    · subst nonempty
      exact behind
    · exact Opening.of_blanks blank nonempty (behind.startsNewLine_eq stop)

/-- What was read to the end of a text is a trail. -/
theorem trail_of_run {e : Char} (he : IsEscape e) {m : Text} {ts : List Trivia}
    (h : run (ending e) m = some (ts, [])) : Trail e m ts := by
  obtain ⟨blanks, s, hb, h⟩ := run_bind_eq_some.mp h
  obtain ⟨breaks, s', hk, h⟩ := run_bind_eq_some.mp h
  obtain ⟨nl, s₂, hn, h⟩ := run_bind_eq_some.mp h
  obtain ⟨comments, s₃, hc, h⟩ := run_bind_eq_some.mp h
  obtain ⟨rfl, rfl⟩ := run_pure_eq_some.mp h
  obtain ⟨gap, blank, stop, rfl, rfl⟩ := run_blankRun_sound hb
  have behind : Opening s' (nl ++ comments) := by
    rcases run_optionalNewLine_eq_some.mp hn with ⟨nl, isEnd, rfl, rfl⟩ | ⟨rfl, rfl, -⟩
    · exact .newLine isEnd
    · exact opening_of_trailingComments hc
  -- white space comes first if there is any, and then a line continuation is no break of the line
  rcases run_optionalContinuation_sound hk with ⟨rfl, rfl⟩ | ⟨k, isBreak, rfl, rfl⟩
  · rw [List.append_nil, List.append_assoc]
    refine .opening ?_
    by_cases nonempty : gap = []
    · subst nonempty
      exact behind
    · exact Opening.of_blanks blank nonempty (behind.startsNewLine_eq stop)
  · rw [List.append_assoc, List.append_assoc]
    by_cases nonempty : gap = []
    · subst nonempty
      exact .broken isBreak behind
    · refine .opening (Opening.of_blanks blank nonempty ?_)
      exact isBreak.goesOn he _

/-! ## Names and values before a trail -/

theorem Trail.breaksLine_eq {e : Char} (he : IsEscape e) {m : Text} {ts : List Trivia}
    (h : Trail e m ts) : breaksLine m = startsLine ts := by
  cases h with
  | opening h => exact h.breaksLine_eq
  | broken isBreak _ => exact isBreak.goesOn he _

theorem Opening.head {m : Text} {ts : List Trivia} (h : Opening m ts) {c : Char}
    (hc : m.head? = some c) : isInlineBlank c = true ∨ isLineEnd c = true ∨ c = '#' := by
  cases h with
  | nil => cases hc
  | blank all _ =>
    cases hc
    exact .inl (all _ List.mem_cons_self)
  | newLine isEnd =>
    simp only [lineEnds, List.mem_cons, List.not_mem_nil, or_false] at isEnd
    rcases isEnd with rfl | rfl <;> cases hc <;> exact .inr (.inl rfl)
  | comment =>
    cases hc
    exact .inr (.inr rfl)

/-- No opening begins with a character that names, references or line continuations begin with. -/
theorem Opening.head_ne {m : Text} {ts : List Trivia} (h : Opening m ts) {d : Char}
    (notBlank : isInlineBlank d = false) (inLine : isLineEnd d = false) (notComment : d ≠ '#') :
    m.head? ≠ some d := by
  intro hd
  rcases h.head hd with blank | lineEnd | rfl
  · rw [blank] at notBlank
    cases notBlank
  · rw [lineEnd] at inLine
    cases inLine
  · exact notComment rfl

theorem IsEscape.ne_hash {e : Char} (he : IsEscape e) : e ≠ '#' := by
  rcases he with rfl | rfl <;> decide

theorem run_continuation_comment {e : Char} (he : IsEscape e) (m : Text) :
    run (continuation e) ('#' :: m) = none :=
  run_continuation_of_head_ne fun hc => he.ne_hash (Option.some.inj hc).symm

theorem Opening.head_ne_escape {m : Text} {ts : List Trivia} (h : Opening m ts) {e : Char}
    (he : IsEscape e) : m.head? ≠ some e :=
  h.head_ne he.not_isInlineBlank he.not_isLineEnd he.ne_hash

theorem Trail.head_ne {e : Char} {m : Text} {ts : List Trivia} (h : Trail e m ts) {d : Char}
    (notBlank : isInlineBlank d = false) (inLine : isLineEnd d = false) (notComment : d ≠ '#')
    (notEscape : d ≠ e) : m.head? ≠ some d := by
  cases h with
  | opening h => exact h.head_ne notBlank inLine notComment
  | broken isBreak _ =>
    obtain ⟨gap, nl, -, -, rfl⟩ := isBreak
    rw [render_broken]
    intro hd
    exact notEscape (Option.some.inj hd).symm

/-- Behind one line continuation, what can be read behind any number of them is what can be read
behind the others. -/
theorem eq_of_breaksText_eq {e : Char} (he : IsEscape e) {k : Continuation} (isBreak : k.IsBreak e)
    {m t : Text} {ts : List Trivia} (h : Opening m ts) {breaks : List Continuation}
    (all : ∀ b ∈ breaks, b.IsBreak e) (hs : k.toToken.render ++ m = breaksText breaks ++ t)
    (ht : run (continuation e) t = none) : breaks = [k] ∧ t = m := by
  have stop : run (continuation e) m = none :=
    run_continuation_of_head_ne (h.head_ne_escape he)
  have one : breaksText [k] ++ m = breaksText breaks ++ t := by simpa using hs
  obtain ⟨rfl, rfl⟩ := breaks_unique (by simpa using isBreak) all stop ht one
  exact ⟨rfl, rfl⟩

theorem Opening.head_not_isArgNameChar {m : Text} {ts : List Trivia} (h : Opening m ts) {c : Char}
    (hc : m.head? = some c) : isArgNameChar c = false := by
  rcases h.head hc with blank | lineEnd | rfl
  · cases isChar : isArgNameChar c with
    | false => rfl
    | true =>
      rw [not_isInlineBlank_of_isArgNameChar isChar] at blank
      cases blank
  · cases isChar : isArgNameChar c with
    | false => rfl
    | true =>
      rw [not_isLineEnd_of_isArgNameChar isChar] at lineEnd
      cases lineEnd
  · decide

/-- A name does not go on in a trail. -/
theorem Trail.run_laterChar {e : Char} (he : IsEscape e) {m : Text} {ts : List Trivia}
    (h : Trail e m ts) (excluded : List Char) :
    run (laterChar (argRules e) excluded) m = none := by
  cases h with
  | opening h =>
    refine run_laterChar_of_head fun c hc => ⟨h.head_not_isArgNameChar hc, ?_⟩
    rintro rfl
    exact h.head_ne_escape he hc
  | @broken k m ts isBreak h =>
    rw [Option.eq_none_iff_forall_ne_some]
    rintro ⟨item, r⟩ hr
    rw [laterChar, run_firstOf_pair] at hr
    rcases Option.or_eq_some_iff.mp hr with hr | ⟨-, hr⟩
    · obtain ⟨breaks, c, all, holds, stop, hs, -⟩ := run_charBelow_eq_some.mp hr
      obtain ⟨-, rfl⟩ := eq_of_breaksText_eq he isBreak h all hs stop
      have isChar : isArgNameChar c = true := (Bool.and_eq_true_iff.mp holds).1
      exact ne_of_class isChar (h.head_not_isArgNameChar rfl) rfl
    · obtain ⟨t, m', ht, -⟩ := run_bind_eq_some.mp hr
      obtain ⟨c, -, unbroken, -, hs⟩ := run_escapedChar_eq_some.mp ht
      obtain ⟨gap, nl, blank, isEnd, rfl⟩ := isBreak
      rw [render_broken, List.cons_append, List.append_assoc] at hs
      rw [← (List.cons.inj hs).2, breaksLine_append blank isEnd] at unbroken
      cases unbroken

section Values

variable {e : Char} {word : Parser (List Token)} [Regular word]

/-- Content without white space goes on in an opening only with a comment. -/
theorem Opening.run_unit (he : IsEscape e) {m : Text} {ts : List Trivia} (h : Opening m ts)
    (notComment : startsComment ts = false) :
    run (unit word (.bare e .ends [])) m = none := by
  have notReference : startsReference m = false := by
    rw [← Bool.not_eq_true, startsReference_iff]
    rintro ⟨c, t, rfl, -⟩
    exact h.head_ne (by decide) (by decide) (by decide) rfl
  refine run_unit_of_not (h.head_ne_escape he) notReference ?_
  -- what is left to see is that the first character does not stand for itself
  cases h with
  | nil => rfl
  | blank all _ =>
    rw [← Bool.not_eq_true, List.cons_append, startsPlain_cons]
    intro plain
    have := plain.2.2.2.1 (all _ List.mem_cons_self)
    cases this
  | newLine isEnd =>
    simp only [lineEnds, List.mem_cons, List.not_mem_nil, or_false] at isEnd
    rcases isEnd with rfl | rfl
    · rw [← Bool.not_eq_true, List.cons_append, startsPlain_cons]
      intro plain
      exact absurd plain.2.1 (by decide)
    · rw [← Bool.not_eq_true, List.cons_append, startsPlain_cons]
      intro plain
      exact absurd plain.2.1 (by decide)
  | comment => cases notComment

/-- A value goes on in no trail that does not begin with a comment. -/
theorem Trail.run_unit (he : IsEscape e) {m : Text} {ts : List Trivia} (h : Trail e m ts)
    (notComment : gluesComment ts = false) :
    run (unit word (.bare e .ends [])) m = none := by
  cases h with
  | opening h =>
    rw [h.gluesComment_eq] at notComment
    exact h.run_unit he notComment
  | @broken k m ts isBreak h =>
    have stop : run (continuation e) m = none :=
      run_continuation_of_head_ne (h.head_ne_escape he)
    have all : ∀ b ∈ [k], b.IsBreak e := by simpa using isBreak
    -- behind the line continuation there is no unit
    have none : run (unit word (.bare e .ends [])) (breaksText [k] ++ m) = none :=
      run_unit_of_breaks all stop (h.run_unit he notComment)
    simpa using none

/-- A comment behind any number of line continuations is read as a character of content. -/
theorem run_unit_comment (he : IsEscape e) (breaks : List Continuation)
    (all : ∀ k ∈ breaks, k.IsBreak e) (m : Text) :
    run (unit word (.bare e .ends [])) (breaksText breaks ++ '#' :: m) =
      some (breaks.map Continuation.toToken ++ [.string ['#']], m) := by
  have notReference : startsReference ('#' :: m) = false := by
    rw [← Bool.not_eq_true, startsReference_iff]
    rintro ⟨c, t, hs, -⟩
    exact absurd (List.cons.inj hs).1 (by decide)
  have plain : startsPlain (.bare e .ends []) ('#' :: m) = true :=
    startsPlain_cons.mpr ⟨he.ne_hash.symm, by decide, by simp [ContentRules.bare, Quote.all,
      Quote.char], fun h => absurd h (by decide), notReference⟩
  have part : run (unitPart word (.bare e .ends [])) ('#' :: m) = some (.string ['#'], m) := by
    refine run_unitPart_eq_some.mpr (.inr ⟨run_referenceWith_of_not notReference, ?_⟩)
    exact run_characterPart_eq_some.mpr (.inl ⟨'#', plain, rfl, rfl⟩)
  exact run_unit_of_part breaks all (run_continuation_comment he m) part

/-- A value goes on in a trail that begins with a comment. -/
theorem Trail.exists_run_unit (he : IsEscape e) {m : Text} {ts : List Trivia} (h : Trail e m ts)
    (comment : gluesComment ts = true) :
    ∃ (breaks : List Continuation) (r : Text), run (unit word (.bare e .ends [])) m =
      some (breaks.map Continuation.toToken ++ [.string ['#']], r) := by
  cases h with
  | opening h =>
    rw [h.gluesComment_eq] at comment
    obtain ⟨r, rfl⟩ := h.exists_of_startsComment comment
    exact ⟨[], r, run_unit_comment he [] (by simp) r⟩
  | @broken k _ _ isBreak h =>
    obtain ⟨r, rfl⟩ := h.exists_of_startsComment comment
    have read : run (unit word (.bare e .ends [])) (breaksText [k] ++ '#' :: r) = _ :=
      run_unit_comment he [k] (by simpa using isBreak) r
    exact ⟨[k], r, by simpa using read⟩

/-- A trail begins with a value only if it begins with a comment. -/
theorem Trail.run_literal (he : IsEscape e) {m : Text} {ts : List Trivia} (h : Trail e m ts)
    (notComment : startsComment ts = false) :
    run (literal e .ends []) m = none := by
  rw [Option.eq_none_iff_forall_ne_some]
  rintro ⟨l, r⟩ hl
  obtain ⟨⟨quote, children⟩, r', hq, -⟩ := run_bind_eq_some.mp hl
  obtain ⟨t, hc, ht⟩ := run_inOptionalQuotes_sound hq
  cases quote with
  | some quote =>
    have notBlank : isInlineBlank quote.char = false := by cases quote <;> decide
    have inLine : isLineEnd quote.char = false := by cases quote <;> decide
    have notHash : quote.char ≠ '#' := by cases quote <;> decide
    refine h.head_ne notBlank inLine notHash (he.ne_quote quote).symm ?_
    rw [ht]
    rfl
  | none =>
    obtain rfl : m = t := ht
    rw [literalContent, content_eq] at hc
    obtain ⟨item, m', hf, -⟩ := run_bind_eq_some.mp hc
    obtain ⟨unbroken, hu⟩ := run_firstUnit_eq_some.mp hf
    cases h with
    | opening h => exact absurd (hu.symm.trans (h.run_unit he notComment)) (by simp)
    | broken isBreak _ =>
      -- the first unit of a literal does not stand behind a line continuation
      have broken := run_continuation_of_isBreak isBreak
      exact absurd (unbroken.symm.trans (broken _)) (by simp)

end Values

end DockerfileSyntax
