import DockerfileSyntax.Proofs.Content.Quoted
import DockerfileSyntax.Proofs.Identifiers.Aggregates

/-!
# Tokens within quotes

What is read without quotes is read within them, up to the closing quote. Fewer characters are
excluded there, and a text that has been read holds none of them: no part gets past a quote that
stands below a line continuation, `not_quoteAhead_of_steps`. The closing quote is a character more
to look at. A reference does not take it; an escape character at the end of the text does.

1. `run_nameRun_quoted`: a run of characters reads the same, as long as it stops at the quote.
2. `run_laterChar_stops`: it stops there unless the escape character begins a run of its own.
3. `quotes_make_no_difference`: literals and identifiers within quotes.
4. `quoted_escape_refused`: an identifier that is not read within quotes.
-/

namespace DockerfileSyntax

open Grammar DockerfileSyntax.Parser

variable {rules : NameRules} {e : Char} {quote : Quote} {s r m : Text}

/-! ## References before a quote -/

theorem Quote.not_isVariableNameChar (quote : Quote) : isVariableNameChar quote.char = false := by
  cases quote <;> decide

/-- No reference takes a quote at the end of the text. -/
theorem run_reference_before_iff (he : IsEscape e) {found : Reference} :
    run (reference e) (s ++ [quote.char]) = some (found, m) ↔
      ∃ k, m = k ++ [quote.char] ∧ run (reference e) s = some (found, k) := by
  have sound {s m : Text} (h : run (reference e) s = some (found, m)) :
      Part (.word e) found.toToken ∧
        (found.braced = false → ∀ c, m.head? = some c → isVariableNameChar c = false) :=
    run_referenceWith_sound (readsWords_content e) h
  constructor
  · intro h
    obtain ⟨isPart, stop⟩ := sound h
    have text : s ++ [quote.char] = found.toToken.render ++ m :=
      (lossless_reference e).append_eq h
    cases m using List.reverseRecOn with
    | nil =>
      obtain ⟨p, d, render, last⟩ := isPart.exists_last
      have same : s ++ [quote.char] = p ++ [d] := by rw [text, List.append_nil]; exact render
      obtain rfl := (List.append_singleton_inj.mp same).2
      rcases last with isBrace | isChar
      · exact absurd isBrace (by cases quote <;> decide)
      · rw [quote.not_isVariableNameChar] at isChar
        cases isChar
    | append_singleton k d _ =>
      rw [← List.append_assoc] at text
      obtain ⟨rfl, rfl⟩ := List.append_singleton_inj.mp text
      refine ⟨k, rfl, isPart.run_reference he rfl k fun bare c hc => stop bare c ?_⟩
      rw [List.head?_append, hc]
      rfl
  · rintro ⟨k, rfl, h⟩
    obtain ⟨isPart, stop⟩ := sound h
    obtain rfl := (lossless_reference e).append_eq h
    rw [List.append_assoc]
    refine isPart.run_reference he rfl _ fun bare c hc => ?_
    cases k with
    | nil =>
      rw [← Option.some.inj hc]
      exact quote.not_isVariableNameChar
    | cons d k => exact stop bare c hc

theorem run_reference_before_eq_none (he : IsEscape e) (h : run (reference e) s = none) :
    run (reference e) (s ++ [quote.char]) = none := by
  rw [Option.eq_none_iff_forall_ne_some]
  rintro ⟨found, m⟩ read
  obtain ⟨k, -, read⟩ := (run_reference_before_iff he).mp read
  rw [h] at read
  cases read

/-! ## Characters within quotes -/

/-- Within quotes only the quote is excluded, and it is excluded outside as well. -/
theorem allowed_of_bare {holds : Char → Bool} {c : Char}
    (h : (holds c && !(excludedIn none).contains c) = true) :
    (holds c && !(excludedIn (some quote)).contains c) = true := by
  obtain ⟨held, allowed⟩ := Bool.and_eq_true_iff.mp h
  have differs : c ≠ quote.char := by
    rintro rfl
    cases quote <;> exact absurd allowed (by decide)
  simp [held, excludedIn, differs]

theorem stopAt_quote (he : IsEscape rules.escape) (quote : Quote) :
    rules.StopAt (excludedIn (some quote)) quote.char where
  notEscape := (he.ne_quote quote).symm
  notBlank := by cases quote <;> decide
  inLine := by cases quote <;> decide
  notLater := by simp [excludedIn]

/-- The escape character is no quote. -/
theorem not_excluded_escape (he : IsEscape e) (quote : Option Quote) : e ∉ excludedIn quote := by
  intro mem
  obtain ⟨own, same⟩ := exists_of_mem_excludedIn mem
  exact he.ne_quote own same

/-- The escape character itself is a later character where it is one of the class. -/
theorem run_plainChar_escape (he : IsEscape rules.escape)
    (isLater : rules.later rules.escape = true) (quote : Option Quote)
    (unbroken : breaksLine s = false) :
    run (plainChar rules (excludedIn quote)) (rules.escape :: s) =
      some ([.string [rules.escape]], s) := by
  have allowed :
      (rules.later rules.escape && !(excludedIn quote).contains rules.escape) = true := by
    simp [isLater, not_excluded_escape he quote]
  exact run_charBelow_eq_some.mpr
    ⟨[], _, List.forall_mem_nil _, allowed, run_continuation_escape unbroken, rfl, rfl⟩

theorem exists_run_laterChar_escape (he : IsEscape rules.escape) (quote : Option Quote) {c : Char}
    (inLine : isLineEnd c = false) (unbroken : breaksLine (c :: s) = false) :
    ∃ found, run (laterChar rules (excludedIn quote)) (rules.escape :: c :: s) = some found := by
  cases isLater : rules.later rules.escape with
  | true =>
    have plain := run_plainChar_escape he isLater quote unbroken
    exact ⟨_, run_laterChar_eq_some.mpr (.inl plain)⟩
  | false => exact ⟨_, run_laterChar_escaped (by simp [isLater]) inLine unbroken⟩

/-- What is a later character outside quotes is one within them. -/
theorem run_laterChar_of_bare (he : IsEscape rules.escape) (quote : Quote) {item : List Token}
    (h : run (laterChar rules (excludedIn none)) s = some (item, r)) :
    run (laterChar rules (excludedIn (some quote))) s = some (item, r) := by
  rcases run_laterChar_eq_some.mp h with plain | ⟨notPlain, c, inLine, unbroken, rfl, rfl⟩
  · obtain ⟨breaks, c, all, allowed, stop, rfl, rfl⟩ := run_charBelow_eq_some.mp plain
    refine run_laterChar_eq_some.mpr (.inl ?_)
    exact run_charBelow_eq_some.mpr ⟨breaks, c, all, allowed_of_bare allowed, stop, rfl, rfl⟩
  · have notLater : rules.later rules.escape = false := by
      rw [← Bool.not_eq_true]
      intro isLater
      rw [run_plainChar_escape he isLater none unbroken] at notPlain
      cases notPlain
    exact run_laterChar_escaped (by simp [notLater]) inLine unbroken

theorem steps_of_bare (he : IsEscape rules.escape) (quote : Quote) {items : List (List Token)}
    (h : Steps (laterChar rules (excludedIn none)) s items r) :
    Steps (laterChar rules (excludedIn (some quote))) s items r := by
  induction h with
  | nil s => exact .nil s
  | cons first shorter _ ih => exact .cons (run_laterChar_of_bare he quote first) shorter ih

/-- A run of characters reads the same before a closing quote, as long as it stops there. -/
theorem run_nameRun_quoted (he : IsEscape rules.escape) {ts : List Token}
    (h : run (nameRun rules (excludedIn none)) s = some (ts, m))
    (stop : run (laterChar rules (excludedIn (some quote))) (m ++ [quote.char]) = none) :
    run (nameRun rules (excludedIn (some quote))) (s ++ [quote.char]) =
      some (ts, m ++ [quote.char]) := by
  obtain ⟨head, items, t, rfl, isFirst, repeated, rfl⟩ := run_nameRun_eq_some.mp h
  have within := steps_of_bare he quote (run_many_eq_some.mp repeated).1
  have steps := ((stopAt_quote he quote).steps (t := [])).mpr within
  have repeated := run_many_of_steps steps (run_many_of_none stop)
  rw [List.append_nil] at repeated
  exact run_nameRun_eq_some.mpr ⟨head, items, _, rfl, allowed_of_bare isFirst, repeated, rfl⟩

/-! ## Quotes that stand in the way -/

/-- A quote stands in the text that nothing outside quotes gets past: before it stands no reference,
and no escape character right before it. -/
def QuoteAhead (e : Char) (s : Text) : Prop :=
  ∃ (t : Text) (own : Quote) (k : Text), s = t ++ own.char :: k ∧
    (∀ c ∈ t, c ≠ '$') ∧ t.getLast? ≠ some e

theorem QuoteAhead.drop {p : Text} (h : QuoteAhead e (p ++ m))
    (free : ∀ c ∈ p, c ∉ excludedIn none) : QuoteAhead e m := by
  obtain ⟨t, own, k, text, noDollar, last⟩ := h
  have notMem : own.char ∉ p := fun mem => free _ mem (quote_mem_all own)
  obtain ⟨t', rfl, rfl⟩ := append_eq_append_cons notMem text
  refine ⟨t', own, k, rfl, fun c mem => noDollar c (List.mem_append_right p mem), ?_⟩
  rw [List.getLast?_append] at last
  intro same
  exact last (by rw [same]; rfl)

/-- An escaped character is not the quote. -/
theorem QuoteAhead.drop_pair (he : IsEscape e) {c : Char} (h : QuoteAhead e (e :: c :: m)) :
    QuoteAhead e m := by
  obtain ⟨_ | ⟨d, _ | ⟨d', t⟩⟩, own, k, text, noDollar, last⟩ := h
  · exact absurd (List.cons.inj text).1 (he.ne_quote own)
  · exact absurd (congrArg some (List.cons.inj text).1.symm) last
  · obtain ⟨rfl, behind⟩ := List.cons.inj text
    obtain ⟨rfl, rfl⟩ := List.cons.inj behind
    refine ⟨t, own, k, rfl, fun c mem => noDollar c (by simp [mem]), fun same => last ?_⟩
    cases t with
    | nil => cases same
    | cons f t => exact same

/-- Line continuations hold no quotes and no dollar signs. -/
theorem ne_of_mem_breaksText {breaks : List Continuation}
    (all : ∀ k ∈ breaks, k.IsBreak e) {c d : Char} (mem : c ∈ breaksText breaks) (notEscape : d ≠ e)
    (notBlank : isInlineBlank d = false) (inLine : isLineEnd d = false) : c ≠ d := by
  rintro rfl
  rcases char_of_mem_breaksText all mem with same | blank | ends
  · exact notEscape same
  · rw [notBlank] at blank
    cases blank
  · rw [inLine] at ends
    cases ends

theorem not_excluded_of_mem_breaksText (he : IsEscape e) {breaks : List Continuation}
    (all : ∀ k ∈ breaks, k.IsBreak e) {c : Char} (mem : c ∈ breaksText breaks) :
    c ∉ excludedIn none := by
  intro excluded
  obtain ⟨own, rfl⟩ := exists_of_mem_excludedIn excluded
  have stop : NameRules.StopAt ⟨e, fun _ => true, fun _ => true⟩ (excludedIn (some own)) own.char :=
    stopAt_quote he own
  exact ne_of_mem_breaksText all mem stop.notEscape stop.notBlank stop.inLine rfl

theorem QuoteAhead.of_laterChar (he : IsEscape rules.escape) (h : QuoteAhead rules.escape s)
    {item : List Token} (read : run (laterChar rules (excludedIn none)) s = some (item, m)) :
    QuoteAhead rules.escape m := by
  rcases run_laterChar_eq_some.mp read with plain | ⟨-, c, -, -, -, rfl⟩
  · obtain ⟨breaks, c, all, allowed, -, rfl, -⟩ := run_charBelow_eq_some.mp plain
    refine h.drop (p := breaksText breaks) (fun d mem => ?_) |>.drop (p := [c]) ?_
    · exact not_excluded_of_mem_breaksText he all mem
    · simpa using (Bool.and_eq_true_iff.mp allowed).2
  · exact h.drop_pair he

theorem QuoteAhead.of_laterSteps (he : IsEscape rules.escape) {items : List (List Token)}
    (steps : Steps (laterChar rules (excludedIn none)) s items m) (h : QuoteAhead rules.escape s) :
    QuoteAhead rules.escape m := by
  induction steps with
  | nil => exact h
  | cons first _ _ ih => exact ih (h.of_laterChar he first)

theorem QuoteAhead.of_part (he : IsEscape rules.escape) (h : QuoteAhead rules.escape s)
    {item : List Token} (read : run (aggregatePart rules none) s = some (item, m)) :
    QuoteAhead rules.escape m := by
  rcases run_aggregatePart_eq_some.mp read with ⟨found, read, -⟩ | ⟨-, read⟩
  · obtain ⟨t, rfl, -⟩ := exists_of_run_reference read
    obtain ⟨_ | ⟨d, t⟩, own, k, text, noDollar, -⟩ := h
    · exact absurd (List.cons.inj text).1.symm own.char_ne_dollar
    · exact absurd (List.cons.inj text).1.symm (noDollar d List.mem_cons_self)
  · obtain ⟨head, items, t, rfl, isFirst, repeated, -⟩ := run_nameRun_eq_some.mp read
    have behind : QuoteAhead rules.escape t :=
      h.drop (p := [head]) (by simpa using (Bool.and_eq_true_iff.mp isFirst).2)
    exact behind.of_laterSteps he (run_many_eq_some.mp repeated).1

/-- Nothing outside quotes is read past the quote, and so not up to the end of the text. -/
theorem not_quoteAhead_of_steps (he : IsEscape rules.escape) {parts : List (List Token)}
    (steps : Steps (aggregatePart rules none) s parts []) : ¬ QuoteAhead rules.escape s := by
  generalize rest : [] = r at steps
  induction steps with
  | nil =>
    rintro ⟨t, own, k, text, -⟩
    rw [← rest] at text
    simp at text
  | cons first _ _ ih => exact fun h => ih rest (h.of_part he first)

theorem last_of_breaksText {breaks : List Continuation} (all : ∀ k ∈ breaks, k.IsBreak e) {c : Char}
    (last : (breaksText breaks).getLast? = some c) : c = '\n' := by
  induction breaks with
  | nil => cases last
  | cons k breaks ih =>
    obtain ⟨⟨gap, ending, -, isEnd, rfl⟩, others⟩ := List.forall_mem_cons.mp all
    rw [breaksText_cons, List.getLast?_append, Option.or_eq_some_iff] at last
    rcases last with last | ⟨-, last⟩
    · exact ih others last
    · have ends : ending.getLast? = some '\n' := by
        simp only [lineEnds, List.mem_cons, List.not_mem_nil, or_false] at isEnd
        rcases isEnd with rfl | rfl <;> rfl
      rw [render_broken, ← List.cons_append, List.getLast?_append, ends] at last
      exact (Option.some.inj last).symm

/-- A quote below line continuations stands in the way. -/
theorem quoteAhead_below (he : IsEscape e) {breaks : List Continuation}
    (all : ∀ k ∈ breaks, k.IsBreak e) (own : Quote) (k : Text) :
    QuoteAhead e (breaksText breaks ++ own.char :: k) := by
  refine ⟨_, own, k, rfl, fun c mem => ?_, fun last => ?_⟩
  · exact ne_of_mem_breaksText all mem he.ne_dollar.symm (by decide) (by decide)
  · have isEnd := last_of_breaksText all last
    have notEnd := he.not_isLineEnd
    rw [isEnd] at notEnd
    cases notEnd

/-! ## Aggregates before a quote -/

/-- A single escape character is read as the first one of a run. -/
theorem first_of_steps_escape (he : IsEscape rules.escape) {parts : List (List Token)}
    (steps : Steps (aggregatePart rules none) [rules.escape] parts []) :
    rules.first rules.escape = true := by
  cases steps with
  | cons first _ _ =>
    rcases run_aggregatePart_eq_some.mp first with ⟨found, read, -⟩ | ⟨-, read⟩
    · obtain ⟨t, text, -⟩ := exists_of_run_reference read
      exact absurd (List.cons.inj text).1 he.ne_dollar
    · obtain ⟨head, items, t, text, isFirst, -, -⟩ := run_nameRun_eq_some.mp read
      rw [(List.cons.inj text).1]
      exact (Bool.and_eq_true_iff.mp isFirst).1

/-- Where a run outside quotes has stopped and the rest is read, a run within quotes stops as well.
It would go on with an escape character that is the last one of the text, since that escapes the
closing quote. -/
theorem run_laterChar_stops (he : IsEscape rules.escape)
    (closed : rules.first rules.escape = true → rules.later rules.escape = true)
    (stop : run (laterChar rules (excludedIn none)) m = none) {parts : List (List Token)}
    (others : Steps (aggregatePart rules none) m parts []) :
    run (laterChar rules (excludedIn (some quote))) (m ++ [quote.char]) = none := by
  rw [Option.eq_none_iff_forall_ne_some]
  rintro ⟨item, r⟩ h
  have none_of {item : List Token} {r : Text}
      (read : run (laterChar rules (excludedIn none)) m = some (item, r)) : False := by
    rw [stop] at read
    cases read
  rcases run_laterChar_eq_some.mp h with plain | ⟨-, c, inLine, unbroken, -, text⟩
  -- a character that is excluded outside quotes is the other quote, and nothing gets past that
  · obtain ⟨k, -, plain⟩ := (stopAt_quote he quote).run_plainChar.mp plain
    obtain ⟨breaks, c, all, allowed, here, rfl, -⟩ := run_charBelow_eq_some.mp plain
    by_cases excluded : c ∈ excludedIn none
    · obtain ⟨own, rfl⟩ := exists_of_mem_excludedIn excluded
      exact not_quoteAhead_of_steps he others (quoteAhead_below he all own k)
    · have allowed' : (rules.later c && !(excludedIn none).contains c) = true := by
        simp [(Bool.and_eq_true_iff.mp allowed).1, excluded]
      exact none_of (run_laterChar_eq_some.mpr (.inl
        (run_charBelow_eq_some.mpr ⟨breaks, c, all, allowed', here, rfl, rfl⟩)))
  -- the escaped character is the closing quote if nothing but the escape character is left
  · rcases m with _ | ⟨d, _ | ⟨d', t⟩⟩
    · exact he.ne_quote quote (List.cons.inj text).1.symm
    · obtain rfl : d = rules.escape := (List.cons.inj text).1
      have isLater := closed (first_of_steps_escape he others)
      exact none_of (run_laterChar_eq_some.mpr (.inl (run_plainChar_escape he isLater none rfl)))
    · obtain ⟨rfl, behind⟩ := List.cons.inj text
      obtain ⟨rfl, rfl⟩ := List.cons.inj behind
      have goesOn : breaksLine (d' :: t) = false := by
        have stops := stopAt_quote he quote
        have same := breaksLine_append_cons stops.notBlank stops.inLine (d' :: t) []
        rw [← same]
        exact unbroken
      obtain ⟨item, read⟩ := exists_run_laterChar_escape he none inLine goesOn
      exact none_of read

/-- A part reads the same before a closing quote. -/
theorem run_aggregatePart_quoted (he : IsEscape rules.escape)
    (closed : rules.first rules.escape = true → rules.later rules.escape = true)
    {item : List Token} (h : run (aggregatePart rules none) s = some (item, m))
    {parts : List (List Token)} (others : Steps (aggregatePart rules none) m parts []) :
    run (aggregatePart rules (some quote)) (s ++ [quote.char]) =
      some (item, m ++ [quote.char]) := by
  refine run_aggregatePart_eq_some.mpr ?_
  rcases run_aggregatePart_eq_some.mp h with ⟨found, read, rfl⟩ | ⟨noReference, read⟩
  · exact .inl ⟨found, (run_reference_before_iff he).mpr ⟨m, rfl, read⟩, rfl⟩
  · obtain ⟨head, items, t, -, -, repeated, -⟩ := run_nameRun_eq_some.mp read
    have stop := run_eq_none_of_run_many length_lt_of_run_laterChar repeated
    exact .inr ⟨run_reference_before_eq_none he noReference,
      run_nameRun_quoted he read (run_laterChar_stops he closed stop others)⟩

theorem steps_quoted (he : IsEscape rules.escape)
    (closed : rules.first rules.escape = true → rules.later rules.escape = true)
    {parts : List (List Token)} (steps : Steps (aggregatePart rules none) s parts []) :
    Steps (aggregatePart rules (some quote)) (s ++ [quote.char]) parts [quote.char] := by
  generalize rest : [] = r at steps
  induction steps with
  | nil => rw [← rest]; exact .nil _
  | cons first shorter others ih =>
    subst rest
    exact .cons (run_aggregatePart_quoted he closed first others) (by simpa using shorter) (ih rfl)

/-- No part begins with an excluded quote. -/
theorem run_aggregatePart_of_excluded {quote : Option Quote} {own : Quote}
    (h : own.char ∈ excludedIn quote) (s : Text) :
    run (aggregatePart rules quote) (own.char :: s) = none := by
  rw [Option.eq_none_iff_forall_ne_some]
  rintro ⟨item, m⟩ read
  rcases run_aggregatePart_eq_some.mp read with ⟨found, read, -⟩ | ⟨-, read⟩
  · obtain ⟨t, text, -⟩ := exists_of_run_reference read
    exact own.char_ne_dollar (List.cons.inj text).1
  · obtain ⟨head, items, t, text, isFirst, -, -⟩ := run_nameRun_eq_some.mp read
    rw [← (List.cons.inj text).1] at isFirst
    simp [h] at isFirst

theorem run_identifierContent_quoted (quote : Quote) (he : IsEscape rules.escape)
    (closed : rules.first rules.escape = true → rules.later rules.escape = true)
    {ts : List Token} (h : run (identifierContent rules none) s = some (ts, [])) :
    run (identifierContent rules (some quote)) (s ++ [quote.char]) = some (ts, [quote.char]) := by
  obtain ⟨parts, steps, -, nonempty, rfl⟩ := run_identifierContent_eq_some.mp h
  have stop : run (aggregatePart rules (some quote)) [quote.char] = none :=
    run_aggregatePart_of_excluded (List.mem_singleton.mpr rfl) []
  exact run_identifierContent_eq_some.mpr ⟨parts, steps_quoted he closed steps, stop, nonempty, rfl⟩

/-! ## Identifiers -/

namespace Identifier

theorem complete_quoted (he : IsEscape rules.escape) {v : Text} {i : Identifier}
    (accepted : complete (identifier rules) v = .ok i) (bare : i.quote = none) (quote : Quote) :
    complete (identifier rules) (quote.char :: (v ++ [quote.char])) =
      .ok ⟨some quote, i.children⟩ := by
  obtain ⟨own, children⟩ := i
  obtain rfl : own = none := bare
  obtain ⟨t, rfl, read⟩ := run_identifier_sound (complete_eq_ok.mp accepted)
  have within := run_nameRun_quoted he read ((stopAt_quote he quote).run_laterChar_eq_none [])
  exact complete_eq_ok.mpr (run_bind_eq_some.mpr ⟨_, [], run_inOptionalQuotes_quoted within, rfl⟩)

theorem complete_aggregate_quoted (he : IsEscape rules.escape)
    (closed : rules.first rules.escape = true → rules.later rules.escape = true) {v : Text}
    {i : Identifier} (accepted : complete (identifierAggregate rules) v = .ok i)
    (bare : i.quote = none) (quote : Quote) :
    complete (identifierAggregate rules) (quote.char :: (v ++ [quote.char])) =
      .ok ⟨some quote, i.children⟩ := by
  obtain ⟨own, children⟩ := i
  obtain rfl : own = none := bare
  obtain ⟨t, rfl, read⟩ := run_identifierAggregate_sound (complete_eq_ok.mp accepted)
  have within := run_identifierContent_quoted quote he closed read
  exact complete_eq_ok.mpr (run_bind_eq_some.mpr ⟨_, [], run_inOptionalQuotes_quoted within, rfl⟩)

/-! ## Escape characters at the end -/

/-- A run that begins with the escape character. -/
theorem run_aggregatePart_escape (he : IsEscape rules.escape)
    (isFirst : rules.first rules.escape = true) (quote : Option Quote) {items : List (List Token)}
    (h : run (many (laterChar rules (excludedIn quote))) s = some (items, r)) :
    run (aggregatePart rules quote) (rules.escape :: s) =
      some (mergeStrings (.string [rules.escape] :: items.flatten), r) := by
  have allowed :
      (rules.first rules.escape && !(excludedIn quote).contains rules.escape) = true := by
    simp [isFirst, not_excluded_escape he quote]
  have noReference : startsReference (rules.escape :: s) = false := by
    rw [startsReference_cons, beq_false_of_ne he.ne_dollar, Bool.false_and]
  refine run_aggregatePart_eq_some.mpr (.inr ⟨run_referenceWith_of_not noReference, ?_⟩)
  exact run_nameRun_eq_some.mpr ⟨_, items, s, rfl, allowed, h, rfl⟩

section Open

variable (rules) (he : IsEscape rules.escape) (isFirst : rules.first rules.escape = true)
  (notLater : rules.later rules.escape = false)
include he isFirst notLater

/-- Where the escape character begins runs but does not go on with them, two of them make an
identifier. -/
theorem complete_aggregate_escapes :
    complete (identifierAggregate rules) [rules.escape, rules.escape] =
      .ok ⟨none, [.string [rules.escape, rules.escape]]⟩ := by
  have stop : run (laterChar rules (excludedIn none)) [rules.escape] = none := by
    rw [Option.eq_none_iff_forall_ne_some]
    rintro ⟨item, m⟩ read
    rcases run_laterChar_eq_some.mp read with plain | ⟨-, c, -, -, -, text⟩
    · have notPlain : run (plainChar rules (excludedIn none)) [rules.escape] = none :=
        run_charBelow_escape (by simp [notLater]) rfl
      exact Option.some_ne_none _ (plain.symm.trans notPlain)
    · cases text
  have first := run_aggregatePart_escape he isFirst none (run_many_of_none stop)
  have second := run_aggregatePart_escape he isFirst none (run_many_of_none run_laterChar_nil)
  have steps := Steps.cons first (by simp) (.cons second (by simp) (.nil []))
  have done : run (aggregatePart rules none) [] = none := by
    rw [Option.eq_none_iff_forall_ne_some]
    rintro ⟨item, m⟩ read
    exact Nat.not_lt_zero _ (length_lt_of_run_aggregatePart read)
  have content : run (identifierContent rules none) [rules.escape, rules.escape] =
      some ([.string [rules.escape, rules.escape]], []) :=
    run_identifierContent_eq_some.mpr ⟨_, steps, done, List.cons_ne_nil _ _, rfl⟩
  have unquoted : run (inOptionalQuotes (identifierContent rules)) [rules.escape, rules.escape] =
      some ((none, _), []) :=
    run_inOptionalQuotes_bare (fun quote same => he.ne_quote quote (Option.some.inj same)) content
  exact complete_eq_ok.mpr (run_bind_eq_some.mpr ⟨_, [], unquoted, rfl⟩)

/-- Within quotes the second one escapes the closing quote. -/
theorem not_complete_aggregate_escapes (quote : Quote) (i : Identifier) :
    complete (identifierAggregate rules)
      [quote.char, rules.escape, rules.escape, quote.char] ≠ .ok i := by
  intro accepted
  obtain ⟨own, children⟩ := i
  obtain ⟨t, text, read⟩ := run_identifierAggregate_sound (complete_eq_ok.mp accepted)
  obtain ⟨item, m, others, first, rest⟩ := exists_first_part read
  cases own with
  | none =>
    obtain rfl : _ = t := text
    rw [run_aggregatePart_of_excluded (quote_mem_all quote)] at first
    cases first
  | some own =>
    obtain ⟨-, rfl⟩ := List.cons.inj text
    have inLine : isLineEnd quote.char = false := by cases quote <;> decide
    have escaped : run (laterChar rules (excludedIn (some own))) [rules.escape, quote.char] =
        some ([.string [rules.escape, quote.char]], []) :=
      run_laterChar_escaped (by simp [notLater]) inLine (by cases quote <;> rfl)
    have stop : run (laterChar rules (excludedIn (some own))) [] = none := run_laterChar_nil
    have repeated := run_many_of_steps (.cons escaped (by simp) (.nil [])) (run_many_of_none stop)
    obtain ⟨-, rfl⟩ := Prod.mk.inj (Option.some.inj
      (first.symm.trans (run_aggregatePart_escape he isFirst (some own) repeated)))
    have behind := (lossless_aggregatePart rules (some own)).steps rest
    simp [Quote.mark] at behind

end Open

end Identifier

/-- Quotes make no difference to what is read without them. Around a literal they keep its parts,
apart from white space that separates, which becomes text; around an identifier without references
they keep its parts whatever it is made of. They do so around an identifier with references if and
only if the escape character, in case it may begin a run, may go on with it as well: at the end of
the text it is a run of its own, and before a closing quote it escapes that. -/
theorem quotes_make_no_difference (he : IsEscape e) (quote : Quote) :
    (∀ spacing excluded v l, complete (literal e spacing excluded) v = .ok l → l.quote = none →
      complete (literal e spacing excluded) (quote.char :: (v ++ [quote.char])) =
        .ok ⟨some quote, joinBlanks l.children⟩ ∧
      Literal.value ⟨some quote, joinBlanks l.children⟩ = l.value ∧
      (spacing ≠ .separates → joinBlanks l.children = l.children)) ∧
    (∀ first later v i, complete (identifier ⟨e, first, later⟩) v = .ok i → i.quote = none →
      complete (identifier ⟨e, first, later⟩) (quote.char :: (v ++ [quote.char])) =
        .ok ⟨some quote, i.children⟩ ∧
      Identifier.value ⟨some quote, i.children⟩ = i.value) ∧
    ∀ first later, (∀ v i, complete (identifierAggregate ⟨e, first, later⟩) v = .ok i →
        i.quote = none →
        complete (identifierAggregate ⟨e, first, later⟩) (quote.char :: (v ++ [quote.char])) =
          .ok ⟨some quote, i.children⟩ ∧
        Identifier.value ⟨some quote, i.children⟩ = i.value) ↔
      (first e = true → later e = true) := by
  refine ⟨fun spacing excluded v l accepted bare => ?_, fun first later v i accepted bare => ?_,
    fun first later => ⟨fun all isFirst => ?_, fun closed v i accepted bare => ?_⟩⟩
  · obtain ⟨read, same⟩ := Literal.complete_quoted he accepted bare quote
    exact ⟨read, valueAll_joinBlanks l.children, same⟩
  · exact ⟨Identifier.complete_quoted he accepted bare quote, rfl⟩
  · cases isLater : later e with
    | true => rfl
    | false =>
      have two := Identifier.complete_aggregate_escapes ⟨e, first, later⟩ he isFirst isLater
      exact absurd (all _ _ two rfl).1
        (Identifier.not_complete_aggregate_escapes ⟨e, first, later⟩ he isFirst isLater quote _)
  · exact ⟨Identifier.complete_aggregate_quoted he closed accepted bare quote, rfl⟩

/-- White space that separates `a` from `b` is text within quotes. -/
theorem quotes_make_no_difference_sample :
    complete (literal '`' .separates [':']) ['a', ' ', 'b'] =
      .ok ⟨none, [.string ['a'], .whitespace [' '], .string ['b']]⟩ ∧
    complete (literal '`' .separates [':']) ['"', 'a', ' ', 'b', '"'] =
      .ok ⟨some .double, [.string ['a', ' ', 'b']]⟩ := by
  have bare : complete (literal '`' .separates [':']) ['a', ' ', 'b'] =
      .ok ⟨none, [.string ['a'], .whitespace [' '], .string ['b']]⟩ :=
    complete_eq_ok.mpr (by decide +kernel)
  obtain ⟨literals, -⟩ := quotes_make_no_difference (.inr rfl) .double
  exact ⟨bare, (literals _ _ _ _ bare rfl).1⟩

/-- Where `a` and the escape character may begin a run and `b` may go on with it, `a\` is an
identifier, and `'a\'` is none. -/
theorem quoted_escape_refused :
    complete (identifierAggregate ⟨'\\', fun c => c == 'a' || c == '\\', fun c => c == 'b'⟩)
      ['a', '\\'] = .ok ⟨none, [.string ['a', '\\']]⟩ ∧
    ¬ ∃ i, complete
      (identifierAggregate ⟨'\\', fun c => c == 'a' || c == '\\', fun c => c == 'b'⟩)
      (Quote.single.char :: (['a', '\\'] ++ [Quote.single.char])) = .ok i := by
  refine ⟨complete_eq_ok.mpr (by decide +kernel), ?_⟩
  rintro ⟨i, read⟩
  have refused : (run
      (identifierAggregate ⟨'\\', fun c => c == 'a' || c == '\\', fun c => c == 'b'⟩)
      ['\'', 'a', '\\', '\'']).isNone = true := by
    decide +kernel
  have found : run
      (identifierAggregate ⟨'\\', fun c => c == 'a' || c == '\\', fun c => c == 'b'⟩)
      ['\'', 'a', '\\', '\''] = some (i, []) := complete_eq_ok.mp read
  rw [found] at refused
  cases refused

end DockerfileSyntax
