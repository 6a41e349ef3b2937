import DockerfileSyntax.Proofs.Lossless.Grammar

/-!
# Broken lines and escaped characters

An escape character breaks the line if white space and a line end follow it, and it escapes the next
character otherwise. Which of the two it does may depend on text far behind the escaped character:
`run_continuation_eq_some` and `run_escapedChar_eq_some` say exactly on what.
-/

namespace DockerfileSyntax

/-- The two escape characters of a Dockerfile. -/
abbrev IsEscape (escape : Char) : Prop := escape = '\\' ∨ escape = '`'

/-- The line ends. -/
def lineEnds : List Text := [['\r', '\n'], ['\n']]

/-- White space and a line end begin here. -/
def breaksLine (s : Text) : Bool :=
  match s.dropWhile isInlineBlank with
  | '\n' :: _ => true
  | '\r' :: '\n' :: _ => true
  | _ => false

namespace Continuation

/-- The line continuation with this white space and this line end. -/
def broken (escape : Char) (gap ending : Text) : Continuation :=
  ⟨.symbol [escape] :: (blankTokens gap ++ [.newLine ending])⟩

/-- A line continuation is an escape character, white space that may be missing, and a line end. -/
def IsBreak (escape : Char) (k : Continuation) : Prop :=
  ∃ gap ending, (∀ c ∈ gap, isInlineBlank c = true) ∧ ending ∈ lineEnds ∧
    k = broken escape gap ending

end Continuation

/-- The text of line continuations. -/
def breaksText (breaks : List Continuation) : Text :=
  Token.renderAll (breaks.map Continuation.toToken)

@[simp] theorem breaksText_nil : breaksText [] = [] := rfl

@[simp] theorem breaksText_cons (k : Continuation) (breaks : List Continuation) :
    breaksText (k :: breaks) = k.toToken.render ++ breaksText breaks := rfl

theorem render_broken (escape : Char) (gap ending : Text) :
    (Continuation.broken escape gap ending).toToken.render = escape :: (gap ++ ending) := by
  simp [Continuation.broken, Continuation.toToken]

/-! ## Characters -/

theorem not_isInlineBlank_of_mem_lineEnds {ending : Text} (h : ending ∈ lineEnds) (r : Text) :
    ∀ c, (ending ++ r).head? = some c → isInlineBlank c = false := by
  simp only [lineEnds, List.mem_cons, List.not_mem_nil, or_false] at h
  rcases h with rfl | rfl
  · intro c hc
    cases hc
    decide
  · intro c hc
    cases hc
    decide

namespace IsEscape

variable {e : Char}

theorem not_isInlineBlank (he : IsEscape e) : isInlineBlank e = false := by
  rcases he with rfl | rfl <;> decide

theorem not_isLineEnd (he : IsEscape e) : isLineEnd e = false := by
  rcases he with rfl | rfl <;> decide

theorem not_isVariableNameChar (he : IsEscape e) : isVariableNameChar e = false := by
  rcases he with rfl | rfl <;> decide

theorem ne_dollar (he : IsEscape e) : e ≠ '$' := by
  rcases he with rfl | rfl <;> decide

theorem ne_openingBrace (he : IsEscape e) : e ≠ '\x7b' := by
  rcases he with rfl | rfl <;> decide

theorem ne_closingBrace (he : IsEscape e) : e ≠ '\x7d' := by
  rcases he with rfl | rfl <;> decide

theorem ne_quote (he : IsEscape e) (quote : Quote) : e ≠ quote.char := by
  rcases he with rfl | rfl <;> cases quote <;> decide

end IsEscape

namespace Parser

/-- The longest run of a class ends where something else follows. -/
theorem run_takeWhile_append {holds : Char → Bool} {s t : Text} (hs : ∀ c ∈ s, holds c = true)
    (ht : ∀ c, t.head? = some c → holds c = false) :
    run (takeWhile holds) (s ++ t) = some (s, t) := by
  have none : t.takeWhile holds = [] ∧ t.dropWhile holds = t := by
    cases t with
    | nil => exact ⟨rfl, rfl⟩
    | cons c t =>
      have := ht c rfl
      simp [this]
  rw [run_takeWhile, List.takeWhile_append_of_pos hs, List.dropWhile_append_of_pos hs, none.1,
    none.2, List.append_nil]

theorem run_takeWhile_eq_some {holds : Char → Bool} {s t r : Text}
    (h : run (takeWhile holds) s = some (t, r)) :
    (∀ c ∈ t, holds c = true) ∧ (∀ c, r.head? = some c → holds c = false) ∧ s = t ++ r := by
  rw [run_takeWhile] at h
  cases h
  refine ⟨fun c hc => ?_, fun c hc => ?_, List.takeWhile_append_dropWhile.symm⟩
  · exact List.all_eq_true.mp List.all_takeWhile c hc
  · cases hd : holds c with
    | false => rfl
    | true =>
      have := List.head?_dropWhile_not holds s
      rw [hc] at this
      simp [hd] at this

end Parser

namespace Grammar

open DockerfileSyntax.Parser

/-! ## Line ends and line continuations -/

theorem run_newLine_eq_some {s t r : Text} :
    run newLine s = some (t, r) ↔ t ∈ lineEnds ∧ s = t ++ r := by
  constructor
  · intro h
    exact eq_append_of_run_choose h
  · rintro ⟨h, rfl⟩
    simp only [lineEnds, List.mem_cons, List.not_mem_nil, or_false] at h
    rcases h with rfl | rfl <;> rfl

theorem run_blanks_append {gap t : Text} (hg : ∀ c ∈ gap, isInlineBlank c = true)
    (ht : ∀ c, t.head? = some c → isInlineBlank c = false) :
    run blanks (gap ++ t) = some (gap, t) :=
  run_takeWhile_append hg ht

theorem breaksLine_append {gap ending : Text} (hg : ∀ c ∈ gap, isInlineBlank c = true)
    (he : ending ∈ lineEnds) (r : Text) : breaksLine (gap ++ (ending ++ r)) = true := by
  rw [breaksLine, List.dropWhile_append_of_pos hg]
  simp only [lineEnds, List.mem_cons, List.not_mem_nil, or_false] at he
  rcases he with rfl | rfl <;> rfl

theorem exists_of_breaksLine {s : Text} (h : breaksLine s = true) :
    ∃ gap ending r, (∀ c ∈ gap, isInlineBlank c = true) ∧ ending ∈ lineEnds ∧
      s = gap ++ (ending ++ r) := by
  have split : s = s.takeWhile isInlineBlank ++ s.dropWhile isInlineBlank :=
    List.takeWhile_append_dropWhile.symm
  have blank : ∀ c ∈ s.takeWhile isInlineBlank, isInlineBlank c = true :=
    fun c hc => List.all_eq_true.mp List.all_takeWhile c hc
  unfold breaksLine at h
  split at h
  · next r hr =>
    rw [hr] at split
    exact ⟨_, ['\n'], r, blank, by decide, split⟩
  · next r hr =>
    rw [hr] at split
    exact ⟨_, ['\r', '\n'], r, blank, by decide, split⟩
  · cases h

theorem run_continuation_eq_some {e : Char} {s r : Text} {k : Continuation} :
    run (continuation e) s = some (k, r) ↔
      ∃ gap ending, (∀ c ∈ gap, isInlineBlank c = true) ∧ ending ∈ lineEnds ∧
        k = .broken e gap ending ∧ s = e :: (gap ++ (ending ++ r)) := by
  rw [continuation, run_attempt]
  constructor
  · intro h
    obtain ⟨u, m, hm, h⟩ := run_bind_eq_some.mp h
    obtain ⟨gap, m', hg, h⟩ := run_bind_eq_some.mp h
    obtain ⟨ending, m₂, hn, h⟩ := run_bind_eq_some.mp h
    obtain ⟨rfl, rfl⟩ := run_pure_eq_some.mp h
    obtain ⟨blank, -, rfl⟩ := run_takeWhile_eq_some hg
    obtain ⟨isEnd, rfl⟩ := run_newLine_eq_some.mp hn
    exact ⟨gap, ending, blank, isEnd, rfl, run_eat_eq_some.mp hm⟩
  · rintro ⟨gap, ending, blank, isEnd, rfl, rfl⟩
    refine run_bind_eq_some.mpr ⟨(), _, run_eat_append [e] _, ?_⟩
    refine run_bind_eq_some.mpr ⟨gap, _, run_blanks_append blank
      (not_isInlineBlank_of_mem_lineEnds isEnd r), ?_⟩
    exact run_bind_eq_some.mpr ⟨ending, r, run_newLine_eq_some.mpr ⟨isEnd, rfl⟩, rfl⟩

theorem isSome_run_continuation (e : Char) (s : Text) :
    (run (continuation e) (e :: s)).isSome = breaksLine s := by
  rw [Bool.eq_iff_iff, Option.isSome_iff_exists]
  constructor
  · rintro ⟨⟨k, r⟩, h⟩
    obtain ⟨gap, ending, blank, isEnd, -, hs⟩ := run_continuation_eq_some.mp h
    rw [(List.cons.inj hs).2]
    exact breaksLine_append blank isEnd r
  · intro h
    obtain ⟨gap, ending, r, blank, isEnd, rfl⟩ := exists_of_breaksLine h
    exact ⟨_, run_continuation_eq_some.mpr ⟨gap, ending, blank, isEnd, rfl, rfl⟩⟩

/-- Only an escape character begins a line continuation. -/
theorem run_continuation_of_head_ne {e : Char} {s : Text} (h : s.head? ≠ some e) :
    run (continuation e) s = none := by
  rw [Option.eq_none_iff_forall_ne_some]
  rintro ⟨k, r⟩ hr
  obtain ⟨gap, ending, -, -, -, rfl⟩ := run_continuation_eq_some.mp hr
  exact h rfl

theorem run_continuation_escape {e : Char} {s : Text} (h : breaksLine s = false) :
    run (continuation e) (e :: s) = none := by
  rw [← Option.isNone_iff_eq_none, ← Option.not_isSome, isSome_run_continuation, h]
  rfl

theorem isBreak_of_run {e : Char} {s r : Text} {k : Continuation}
    (h : run (continuation e) s = some (k, r)) :
    k.IsBreak e ∧ s = k.toToken.render ++ r ∧ r.length < s.length := by
  obtain ⟨gap, ending, blank, isEnd, rfl, rfl⟩ := run_continuation_eq_some.mp h
  refine ⟨⟨gap, ending, blank, isEnd, rfl⟩, by rw [render_broken]; simp, ?_⟩
  simp only [List.length_cons, List.length_append]
  omega

theorem run_continuation_of_isBreak {e : Char} {k : Continuation} (h : k.IsBreak e) (r : Text) :
    run (continuation e) (k.toToken.render ++ r) = some (k, r) := by
  obtain ⟨gap, ending, blank, isEnd, rfl⟩ := h
  rw [render_broken]
  exact run_continuation_eq_some.mpr ⟨gap, ending, blank, isEnd, rfl, by simp⟩

/-- Line continuations are read as long as there are any. -/
theorem run_continuations_eq_some {e : Char} {s r : Text} {breaks : List Continuation} :
    run (continuations e) s = some (breaks, r) ↔
      (∀ k ∈ breaks, k.IsBreak e) ∧ s = breaksText breaks ++ r ∧
        run (continuation e) r = none := by
  rw [continuations, run_many_eq_some]
  constructor
  · rintro ⟨steps, last⟩
    have stop : run (continuation e) r = none := by
      rw [Option.eq_none_iff_forall_ne_some]
      rintro ⟨k, m⟩ hk
      have shorter := (isBreak_of_run hk).2.2
      rw [last k m hk] at shorter
      exact Nat.lt_irrefl _ shorter
    clear last
    induction steps with
    | nil => exact ⟨by simp, rfl, stop⟩
    | cons first _ _ ih =>
      obtain ⟨all, hm, -⟩ := ih stop
      obtain ⟨isBreak, hs, -⟩ := isBreak_of_run first
      refine ⟨List.forall_mem_cons.mpr ⟨isBreak, all⟩, ?_, stop⟩
      rw [hs, hm, breaksText_cons, List.append_assoc]
  · rintro ⟨all, rfl, stop⟩
    refine ⟨?_, fun k m hk => by rw [stop] at hk; cases hk⟩
    clear stop
    induction breaks with
    | nil => exact .nil r
    | cons k breaks ih =>
      obtain ⟨isBreak, others⟩ := List.forall_mem_cons.mp all
      have first := run_continuation_of_isBreak isBreak (breaksText breaks ++ r)
      rw [breaksText_cons, List.append_assoc]
      exact .cons first (by rw [(isBreak_of_run first).2.1]; exact (isBreak_of_run first).2.2)
        (ih others)

/-- A text begins with line continuations in one way only, as long as none begins behind them. -/
theorem breaks_unique {e : Char} {breaks breaks' : List Continuation} {s s' : Text}
    (all : ∀ k ∈ breaks, k.IsBreak e) (all' : ∀ k ∈ breaks', k.IsBreak e)
    (stop : run (continuation e) s = none) (stop' : run (continuation e) s' = none)
    (h : breaksText breaks ++ s = breaksText breaks' ++ s') : breaks = breaks' ∧ s = s' := by
  have read : run (continuations e) (breaksText breaks ++ s) = some (breaks, s) :=
    run_continuations_eq_some.mpr ⟨all, rfl, stop⟩
  have read' : run (continuations e) (breaksText breaks ++ s) = some (breaks', s') :=
    run_continuations_eq_some.mpr ⟨all', h, stop'⟩
  exact Prod.mk.inj (Option.some.inj (read.symm.trans read'))

/-! ## Escaped characters -/

/-- An escape character escapes the next one, unless that ends a line or the line breaks here. -/
theorem run_escapedChar_eq_some {e : Char} {s t r : Text} :
    run (escapedChar e) s = some (t, r) ↔
      ∃ c, isLineEnd c = false ∧ breaksLine (c :: r) = false ∧ t = [e, c] ∧ s = e :: c :: r := by
  rw [escapedChar]
  constructor
  · intro h
    obtain ⟨b, m, hb, h⟩ := run_bind_eq_some.mp h
    rw [run_sees] at hb
    cases hb
    split at h
    · cases h
    · next unbroken =>
      rw [run_attempt] at h
      obtain ⟨mark, m, hm, h⟩ := run_bind_eq_some.mp h
      obtain ⟨c, m', hc, h⟩ := run_bind_eq_some.mp h
      obtain ⟨rfl, rfl⟩ := run_pure_eq_some.mp h
      obtain ⟨rfl, isMark⟩ := run_satisfy_eq_some.mp hm
      obtain ⟨rfl, inLine⟩ := run_satisfy_eq_some.mp hc
      obtain rfl : mark = e := beq_iff_eq.mp isMark
      rw [isSome_run_continuation] at unbroken
      exact ⟨c, by simpa using inLine, by simpa using unbroken, rfl, rfl⟩
  · rintro ⟨c, inLine, unbroken, rfl, rfl⟩
    refine run_bind_eq_some.mpr ⟨false, e :: c :: r, ?_, ?_⟩
    · rw [run_sees, isSome_run_continuation, unbroken]
    · rw [if_neg Bool.false_ne_true, run_attempt]
      refine run_bind_eq_some.mpr ⟨e, _, run_satisfy_eq_some.mpr ⟨rfl, beq_self_eq_true e⟩, ?_⟩
      exact run_bind_eq_some.mpr ⟨c, r, run_satisfy_eq_some.mpr ⟨rfl, by simp [inLine]⟩, rfl⟩

/-- A character behind line continuations. -/
theorem run_charBelow_eq_some {e : Char} {what : Expectation} {holds : Char → Bool} {s r : Text}
    {ts : List Token} :
    run (charBelow e what holds) s = some (ts, r) ↔
      ∃ breaks c, (∀ k ∈ breaks, k.IsBreak e) ∧ holds c = true ∧
        run (continuation e) (c :: r) = none ∧ s = breaksText breaks ++ c :: r ∧
        ts = breaks.map Continuation.toToken ++ [.string [c]] := by
  rw [charBelow, run_attempt]
  constructor
  · intro h
    obtain ⟨breaks, m, hb, h⟩ := run_bind_eq_some.mp h
    obtain ⟨c, m', hc, h⟩ := run_bind_eq_some.mp h
    obtain ⟨rfl, rfl⟩ := run_pure_eq_some.mp h
    obtain ⟨all, rfl, stop⟩ := run_continuations_eq_some.mp hb
    obtain ⟨rfl, holds⟩ := run_satisfy_eq_some.mp hc
    exact ⟨breaks, c, all, holds, stop, rfl, rfl⟩
  · rintro ⟨breaks, c, all, holds, stop, rfl, rfl⟩
    refine run_bind_eq_some.mpr ⟨breaks, _, run_continuations_eq_some.mpr ⟨all, rfl, stop⟩, ?_⟩
    exact run_bind_eq_some.mpr ⟨c, r, run_satisfy_eq_some.mpr ⟨rfl, holds⟩, rfl⟩

/-- Where an escape character begins no line continuation, no character stands behind one. -/
theorem run_charBelow_escape {e : Char} {what : Expectation} {holds : Char → Bool}
    (notHeld : holds e = false) {s : Text} (goesOn : breaksLine s = false) :
    run (charBelow e what holds) (e :: s) = none := by
  rw [Option.eq_none_iff_forall_ne_some]
  rintro ⟨ts, m⟩ h
  obtain ⟨breaks, d, all, held, -, hs, -⟩ := run_charBelow_eq_some.mp h
  cases breaks with
  | nil =>
    rw [← (List.cons.inj hs).1, notHeld] at held
    cases held
  | cons k breaks =>
    have broken := run_continuation_of_isBreak (all k List.mem_cons_self)
      (breaksText breaks ++ d :: m)
    rw [← List.append_assoc, ← breaksText_cons, ← hs, run_continuation_escape goesOn] at broken
    cases broken

end Grammar

end DockerfileSyntax
