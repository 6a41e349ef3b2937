import DockerfileSyntax.Proofs.Literals

/-!
# Identifiers

What is true of identifiers whatever their classes of characters are. The value of an identifier is
its text, unless that holds a line continuation: `run_nameRun_value`. Before a character at which
its later characters stop, an identifier ends as it does at the end of the text:
`run_nameRun_before_iff`. It need not end there, since an escape character takes any character that
follows it.
-/

namespace DockerfileSyntax

open Grammar DockerfileSyntax.Parser

/-- A class tells characters apart. -/
theorem ne_of_class {holds : Char → Bool} {c d : Char} (h : holds c = true)
    (hd : holds d = false) : c ≠ d := by
  rintro rfl
  rw [h] at hd
  cases hd

/-- Nothing but quotes is excluded in a quote or outside quotes. -/
theorem exists_of_mem_excludedIn {quote : Option Quote} {c : Char} (h : c ∈ excludedIn quote) :
    ∃ own : Quote, c = own.char := by
  cases quote with
  | some own => exact ⟨own, List.mem_singleton.mp h⟩
  | none =>
    obtain ⟨own, -, same⟩ := List.mem_map.mp h
    exact ⟨own, same.symm⟩

/-- From a class without quotes nothing is excluded. -/
theorem and_not_excluded {holds : Char → Bool} (noQuotes : ∀ own : Quote, holds own.char = false)
    (quote : Option Quote) (c : Char) :
    (holds c && !(excludedIn quote).contains c) = holds c := by
  cases h : holds c with
  | false => rfl
  | true =>
    have notMem : c ∉ excludedIn quote := by
      intro mem
      obtain ⟨own, rfl⟩ := exists_of_mem_excludedIn mem
      rw [noQuotes own] at h
      cases h
    simpa using notMem

/-! ## Before a character that stops -/

section Stops

variable {e d : Char}

/-- A text that does not hold `d` ends before the first `d`. -/
theorem append_eq_append_cons {l m s t : Text} (notMem : d ∉ l) (h : l ++ m = s ++ d :: t) :
    ∃ k, s = l ++ k ∧ m = k ++ d :: t := by
  rcases List.append_eq_append_iff.mp h with ⟨k, hs, hm⟩ | ⟨k, hl, hd⟩
  · exact ⟨k, hs, hm⟩
  · cases k with
    | nil =>
      rw [List.append_nil] at hl
      exact ⟨[], by rw [hl, List.append_nil], hd.symm⟩
    | cons c k =>
      obtain ⟨rfl, -⟩ := List.cons.inj hd
      exact absurd (by simp [hl]) notMem

theorem isLineEnd_of_mem_lineEnds {ending : Text} (h : ending ∈ lineEnds) {c : Char}
    (hc : c ∈ ending) : isLineEnd c = true := by
  have all : lineEnds.all (·.all isLineEnd) = true := by decide
  exact List.all_eq_true.mp (List.all_eq_true.mp all ending h) c hc

/-- Whether a line breaks is seen before a character that is neither white space nor a line end. -/
theorem breaksLine_append_cons (notBlank : isInlineBlank d = false) (inLine : isLineEnd d = false)
    (s t : Text) : breaksLine (s ++ d :: t) = breaksLine s := by
  rw [Bool.eq_iff_iff]
  constructor
  · intro h
    obtain ⟨gap, ending, r, blank, isEnd, hs⟩ := exists_of_breaksLine h
    have notMem : d ∉ gap ++ ending := by
      intro hd
      rcases List.mem_append.mp hd with hd | hd
      · rw [blank d hd] at notBlank
        cases notBlank
      · rw [isLineEnd_of_mem_lineEnds isEnd hd] at inLine
        cases inLine
    obtain ⟨k, rfl, -⟩ := append_eq_append_cons (m := r) notMem (by simpa using hs.symm)
    rw [List.append_assoc]
    exact breaksLine_append blank isEnd k
  · intro h
    obtain ⟨gap, ending, r, blank, isEnd, rfl⟩ := exists_of_breaksLine h
    rw [List.append_assoc, List.append_assoc]
    exact breaksLine_append blank isEnd (r ++ d :: t)

theorem run_continuation_append_cons (notEscape : d ≠ e) (notBlank : isInlineBlank d = false)
    (inLine : isLineEnd d = false) (s t : Text) :
    run (continuation e) (s ++ d :: t) = none ↔ run (continuation e) s = none := by
  cases s with
  | nil =>
    have first : run (continuation e) (d :: t) = none :=
      run_continuation_of_head_ne fun h => notEscape (Option.some.inj h)
    have last : run (continuation e) [] = none := run_continuation_of_head_ne (by simp)
    exact iff_of_true first last
  | cons c s =>
    by_cases isEscape : c = e
    · subst isEscape
      rw [← Option.not_isSome_iff_eq_none, ← Option.not_isSome_iff_eq_none, List.cons_append,
        isSome_run_continuation, isSome_run_continuation, breaksLine_append_cons notBlank inLine]
    · have notHead (r : Text) : run (continuation e) (c :: r) = none :=
        run_continuation_of_head_ne fun h => isEscape (Option.some.inj h)
      exact iff_of_true (notHead _) (notHead _)

/-- What line continuations are made of. -/
theorem char_of_mem_breaksText {breaks : List Continuation} (all : ∀ k ∈ breaks, k.IsBreak e)
    {c : Char} (hc : c ∈ breaksText breaks) :
    c = e ∨ isInlineBlank c = true ∨ isLineEnd c = true := by
  induction breaks with
  | nil => cases hc
  | cons k breaks ih =>
    obtain ⟨first, others⟩ := List.forall_mem_cons.mp all
    rcases List.mem_append.mp hc with hc | hc
    · exact first.char_of_mem hc
    · exact ih others hc

/-- A character behind line continuations is read as at the end of the text. -/
theorem run_charBelow_append_cons (notEscape : d ≠ e) (notBlank : isInlineBlank d = false)
    (inLine : isLineEnd d = false) {what : Expectation} {holds : Char → Bool}
    (stops : holds d = false) {s t m : Text} {ts : List Token} :
    run (charBelow e what holds) (s ++ d :: t) = some (ts, m) ↔
      ∃ k, m = k ++ d :: t ∧ run (charBelow e what holds) s = some (ts, k) := by
  have apart := run_continuation_append_cons notEscape notBlank inLine
  constructor
  · intro h
    obtain ⟨breaks, c, all, isChar, stop, hs, rfl⟩ := run_charBelow_eq_some.mp h
    have notMem : d ∉ breaksText breaks ++ [c] := by
      intro hd
      rcases List.mem_append.mp hd with hd | hd
      · rcases char_of_mem_breaksText all hd with h | h | h
        · exact notEscape h
        · rw [notBlank] at h
          cases h
        · rw [inLine] at h
          cases h
      · rw [List.mem_singleton.mp hd, isChar] at stops
        cases stops
    obtain ⟨k, rfl, rfl⟩ := append_eq_append_cons (m := m) notMem (by simpa using hs.symm)
    refine ⟨k, rfl, run_charBelow_eq_some.mpr ⟨breaks, c, all, isChar, ?_, by simp, rfl⟩⟩
    exact (apart (c :: k) t).mp stop
  · rintro ⟨k, rfl, h⟩
    obtain ⟨breaks, c, all, isChar, stop, rfl, rfl⟩ := run_charBelow_eq_some.mp h
    refine run_charBelow_eq_some.mpr ⟨breaks, c, all, isChar, ?_, by simp, rfl⟩
    exact (apart (c :: k) t).mpr stop

end Stops

/-! ## Later characters -/

/-- The later characters of an identifier stop at the character, unless it is escaped. -/
structure NameRules.StopAt (rules : NameRules) (excluded : List Char) (d : Char) : Prop where
  notEscape : d ≠ rules.escape
  notBlank : isInlineBlank d = false
  inLine : isLineEnd d = false
  notLater : (rules.later d && !excluded.contains d) = false

section Runs

variable {rules : NameRules} {excluded : List Char} {d : Char} {s t r : Text}

/-- A later character that is not escaped. -/
def plainChar (rules : NameRules) (excluded : List Char) : Parser (List Token) :=
  charBelow rules.escape .identifierChar fun c => rules.later c && !excluded.contains c

theorem run_laterChar_eq_some {item : List Token} :
    run (laterChar rules excluded) s = some (item, r) ↔
      run (plainChar rules excluded) s = some (item, r) ∨
      run (plainChar rules excluded) s = none ∧ ∃ c, isLineEnd c = false ∧
        breaksLine (c :: r) = false ∧ item = [.string [rules.escape, c]] ∧
        s = rules.escape :: c :: r := by
  rw [laterChar, run_firstOf_pair, Option.or_eq_some_iff, ← plainChar]
  refine or_congr_right (and_congr_right fun _ => ?_)
  constructor
  · intro h
    obtain ⟨t, m, ht, h⟩ := run_bind_eq_some.mp h
    obtain ⟨rfl, rfl⟩ := run_pure_eq_some.mp h
    obtain ⟨c, inLine, unbroken, rfl, hs⟩ := run_escapedChar_eq_some.mp ht
    exact ⟨c, inLine, unbroken, rfl, hs⟩
  · rintro ⟨c, inLine, unbroken, rfl, hs⟩
    exact run_bind_eq_some.mpr
      ⟨_, r, run_escapedChar_eq_some.mpr ⟨c, inLine, unbroken, rfl, hs⟩, rfl⟩

/-- A later character is read behind line continuations. -/
theorem run_laterChar_of_char {breaks : List Continuation}
    (all : ∀ k ∈ breaks, k.IsBreak rules.escape) {c : Char}
    (allowed : (rules.later c && !excluded.contains c) = true) (notEscape : c ≠ rules.escape)
    (r : Text) :
    run (laterChar rules excluded) (breaksText breaks ++ c :: r) =
      some (breaks.map Continuation.toToken ++ [.string [c]], r) := by
  have stop : run (continuation rules.escape) (c :: r) = none :=
    run_continuation_of_head_ne fun same => notEscape (Option.some.inj same)
  refine run_laterChar_eq_some.mpr (.inl ?_)
  exact run_charBelow_eq_some.mpr ⟨breaks, c, all, allowed, stop, rfl, rfl⟩

/-- An escaped character is read where the escape character is no later character itself. -/
theorem run_laterChar_escaped
    (notLater : (rules.later rules.escape && !excluded.contains rules.escape) = false) {c : Char}
    (inLine : isLineEnd c = false) (unbroken : breaksLine (c :: r) = false) :
    run (laterChar rules excluded) (rules.escape :: c :: r) =
      some ([.string [rules.escape, c]], r) := by
  have notPlain : run (plainChar rules excluded) (rules.escape :: c :: r) = none :=
    run_charBelow_escape notLater unbroken
  exact run_laterChar_eq_some.mpr (.inr ⟨notPlain, c, inLine, unbroken, rfl, rfl⟩)

theorem length_lt_of_run_laterChar {item : List Token}
    (h : run (laterChar rules excluded) s = some (item, r)) : r.length < s.length := by
  rcases run_laterChar_eq_some.mp h with plain | ⟨-, c, -, -, -, rfl⟩
  · obtain ⟨breaks, c, -, -, -, rfl, -⟩ := run_charBelow_eq_some.mp plain
    simp only [List.length_append, List.length_cons]
    omega
  · simp only [List.length_cons]
    omega

theorem run_laterChar_nil : run (laterChar rules excluded) [] = none := by
  rw [Option.eq_none_iff_forall_ne_some]
  rintro ⟨item, r⟩ h
  exact Nat.not_lt_zero _ (length_lt_of_run_laterChar h)

theorem NameRules.StopAt.run_plainChar (h : rules.StopAt excluded d) {m : Text}
    {item : List Token} : run (plainChar rules excluded) (s ++ d :: t) = some (item, m) ↔
      ∃ k, m = k ++ d :: t ∧ run (plainChar rules excluded) s = some (item, k) :=
  run_charBelow_append_cons h.notEscape h.notBlank h.inLine h.notLater

theorem NameRules.StopAt.run_plainChar_eq_none (h : rules.StopAt excluded d) :
    run (plainChar rules excluded) (s ++ d :: t) = none ↔
      run (plainChar rules excluded) s = none := by
  simp only [Option.eq_none_iff_forall_ne_some, Prod.forall, ne_eq, h.run_plainChar, not_exists,
    not_and]
  constructor
  · intro no item k hk
    exact no item _ k rfl hk
  · rintro no item _ k rfl hk
    exact no item k hk

/-- A later character that is read up to somewhere before `d` is read there in any case. -/
theorem NameRules.StopAt.run_laterChar (h : rules.StopAt excluded d) {item : List Token}
    {m : Text} : run (laterChar rules excluded) (s ++ d :: t) = some (item, m ++ d :: t) ↔
      run (laterChar rules excluded) s = some (item, m) := by
  rw [run_laterChar_eq_some, run_laterChar_eq_some, h.run_plainChar, h.run_plainChar_eq_none]
  refine or_congr ?_ (and_congr_right fun _ => exists_congr fun c => and_congr_right fun _ => ?_)
  · constructor
    · rintro ⟨k, same, hk⟩
      rwa [List.append_cancel_right same]
    · intro hm
      exact ⟨m, rfl, hm⟩
  · have sameBreak : breaksLine (c :: (m ++ d :: t)) = breaksLine (c :: m) :=
      breaksLine_append_cons h.notBlank h.inLine (c :: m) t
    have sameText : s ++ d :: t = rules.escape :: c :: (m ++ d :: t) ↔
        s = rules.escape :: c :: m := by
      rw [← List.cons_append, ← List.cons_append, List.append_left_inj]
    rw [sameBreak, sameText]

theorem NameRules.StopAt.run_laterChar_eq_none (h : rules.StopAt excluded d) (t : Text) :
    run (laterChar rules excluded) (d :: t) = none := by
  rw [Option.eq_none_iff_forall_ne_some]
  rintro ⟨item, r⟩ hr
  rcases run_laterChar_eq_some.mp hr with hr | ⟨-, c, -, -, -, hs⟩
  · obtain ⟨k, -, hk⟩ := (h.run_plainChar (s := [])).mp hr
    have here : run (laterChar rules excluded) [] = some (item, k) :=
      run_laterChar_eq_some.mpr (.inl hk)
    rw [run_laterChar_nil] at here
    cases here
  · exact h.notEscape (List.cons.inj hs).1

theorem text_of_steps {items : List (List Token)}
    (h : Steps (laterChar rules excluded) s items r) :
    s = Token.renderAll items.flatten ++ r := by
  induction h with
  | nil => rfl
  | cons first _ _ ih =>
    rw [List.flatten_cons, Token.renderAll_append, List.append_assoc, ← ih]
    exact (lossless_laterChar rules excluded).append_eq first

theorem NameRules.StopAt.steps (h : rules.StopAt excluded d) {m : Text}
    {items : List (List Token)} :
    Steps (laterChar rules excluded) (s ++ d :: t) items (m ++ d :: t) ↔
      Steps (laterChar rules excluded) s items m := by
  constructor
  · intro steps
    generalize long : s ++ d :: t = l, rest : m ++ d :: t = l' at steps
    induction steps generalizing s with
    | nil =>
      rw [← rest] at long
      rw [List.append_cancel_right long]
      exact .nil m
    | @cons _ k _ item items first shorter others ih =>
      obtain ⟨k', rfl⟩ : ∃ k', k = k' ++ d :: t := by
        have text := text_of_steps others
        exact ⟨Token.renderAll items.flatten ++ m, by rw [text, ← rest, List.append_assoc]⟩
      subst long
      refine .cons (h.run_laterChar.mp first) ?_ (ih rfl rest)
      simpa using shorter
  · intro steps
    induction steps with
    | nil s => exact .nil _
    | cons first shorter _ ih => exact .cons (h.run_laterChar.mpr first) (by simpa using shorter) ih

/-! ## Whole identifiers -/

theorem run_nameRun_eq_some {ts : List Token} :
    run (nameRun rules excluded) s = some (ts, r) ↔ ∃ head items m, s = head :: m ∧
      (rules.first head && !excluded.contains head) = true ∧
      run (many (laterChar rules excluded)) m = some (items, r) ∧
      ts = mergeStrings (.string [head] :: items.flatten) := by
  rw [nameRun, run_attempt]
  constructor
  · intro h
    obtain ⟨head, m, hh, h⟩ := run_bind_eq_some.mp h
    obtain ⟨items, m', hi, h⟩ := run_bind_eq_some.mp h
    obtain ⟨rfl, rfl⟩ := run_pure_eq_some.mp h
    obtain ⟨rfl, isFirst⟩ := run_satisfy_eq_some.mp hh
    exact ⟨head, items, m, rfl, isFirst, hi, rfl⟩
  · rintro ⟨head, items, m, rfl, isFirst, hi, rfl⟩
    refine run_bind_eq_some.mpr ⟨head, m, run_satisfy_eq_some.mpr ⟨rfl, isFirst⟩, ?_⟩
    exact run_bind_eq_some.mpr ⟨items, r, hi, rfl⟩

/-- An identifier begins with a character that is not excluded. -/
theorem head_of_run_nameRun {ts : List Token} (h : run (nameRun rules excluded) s = some (ts, r)) :
    ∃ c m, Token.renderAll ts = c :: m ∧ c ∉ excluded := by
  obtain ⟨head, items, m, -, isFirst, -, rfl⟩ := run_nameRun_eq_some.mp h
  refine ⟨head, Token.renderAll items.flatten, by simp, ?_⟩
  have allowed := (Bool.and_eq_true_iff.mp isFirst).2
  simpa using allowed

/-- An identifier ends before a character that stops it if and only if it is the whole of what
stands there. -/
theorem run_nameRun_before_iff (h : rules.StopAt excluded d) {ts : List Token} :
    run (nameRun rules excluded) (s ++ d :: t) = some (ts, d :: t) ↔
      run (nameRun rules excluded) s = some (ts, []) := by
  have repeated {m : Text} {items : List (List Token)} :
      run (many (laterChar rules excluded)) (m ++ d :: t) = some (items, d :: t) ↔
        run (many (laterChar rules excluded)) m = some (items, []) := by
    rw [run_many_eq_some, run_many_eq_some, ← h.steps (s := m) (m := [])]
    refine and_congr_right fun _ => iff_of_true ?_ ?_
    · rw [h.run_laterChar_eq_none]
      simp
    · rw [run_laterChar_nil]
      simp
  rw [run_nameRun_eq_some, run_nameRun_eq_some]
  constructor
  · rintro ⟨head, items, m, hs, isFirst, hi, rfl⟩
    cases s with
    | nil =>
      -- the first character would be `d` itself, and then it would not be left
      obtain ⟨rfl, rfl⟩ := List.cons.inj hs
      exact absurd (Regular.length_le hi) (by simp)
    | cons c s =>
      obtain ⟨rfl, rfl⟩ := List.cons.inj hs
      exact ⟨c, items, s, rfl, isFirst, repeated.mp hi, rfl⟩
  · rintro ⟨head, items, m, rfl, isFirst, hi, rfl⟩
    exact ⟨head, items, m ++ d :: t, rfl, isFirst, repeated.mpr hi, rfl⟩

/-! ## Values -/

theorem run_laterChar_value {item : List Token}
    (h : run (laterChar rules excluded) s = some (item, r)) :
    Token.valueAll item = Token.renderAll item ∨
      HoldsBreak rules.escape (Token.renderAll item) := by
  rcases run_laterChar_eq_some.mp h with h | ⟨-, c, -, -, rfl, -⟩
  · obtain ⟨breaks, c, all, -, -, -, rfl⟩ := run_charBelow_eq_some.mp h
    cases breaks with
    | nil => exact .inl rfl
    | cons k breaks =>
      refine .inr ⟨k, all k List.mem_cons_self, [], ?_⟩
      exact ⟨breaksText breaks ++ [c], by simp [breaksText]⟩
  · exact .inl rfl

theorem steps_value {items : List (List Token)}
    (h : Steps (laterChar rules excluded) s items r) :
    Token.valueAll items.flatten = Token.renderAll items.flatten ∨
      HoldsBreak rules.escape (Token.renderAll items.flatten) := by
  induction h with
  | nil => exact .inl rfl
  | @cons _ _ _ item items first _ _ ih =>
    rw [List.flatten_cons, Token.valueAll_append, Token.renderAll_append]
    rcases run_laterChar_value first with same | holds
    · rcases ih with others | holds
      · exact .inl (by rw [same, others])
      · exact .inr (holds.mono (List.infix_append_right ..))
    · exact .inr (holds.mono (List.infix_append_left ..))

/-- The value of an identifier is its text, unless that holds a line continuation. -/
theorem run_nameRun_value {ts : List Token} (h : run (nameRun rules excluded) s = some (ts, r))
    (unbroken : ¬ HoldsBreak rules.escape (Token.renderAll ts)) :
    Token.valueAll ts = Token.renderAll ts := by
  obtain ⟨head, items, m, -, -, hi, rfl⟩ := run_nameRun_eq_some.mp h
  rw [renderAll_mergeStrings] at unbroken ⊢
  rw [valueAll_mergeStrings]
  rcases steps_value (run_many_eq_some.mp hi).1 with same | holds
  · exact congrArg (head :: ·) same
  · exact absurd (holds.mono ⟨[head], [], by simp⟩) unbroken

/-- The text of an identifier is its name between its quotes. -/
theorem Identifier.render_eq (i : Identifier) :
    i.render = Quote.mark i.quote ++ Token.renderAll i.children ++ Quote.mark i.quote := by
  simp [Identifier.render, Identifier.toToken]

/-- What was read as an identifier is a name within the quotes that it has. -/
theorem run_identifier_sound {i : Identifier} (h : run (identifier rules) s = some (i, r)) :
    ∃ t, s = Quote.mark i.quote ++ t ∧
      run (nameRun rules (excludedIn i.quote)) t = some (i.children, Quote.mark i.quote ++ r) := by
  obtain ⟨⟨quote, children⟩, m, hq, h⟩ := run_bind_eq_some.mp h
  obtain ⟨rfl, rfl⟩ := run_pure_eq_some.mp h
  obtain ⟨t, hc, hs⟩ := run_inOptionalQuotes_sound hq
  exact ⟨t, hs, hc⟩

theorem run_identifier_value {i : Identifier} (h : run (identifier rules) s = some (i, r))
    (unbroken : ¬ HoldsBreak rules.escape s) : i.value = Token.renderAll i.children := by
  obtain ⟨t, rfl, hc⟩ := run_identifier_sound h
  refine run_nameRun_value hc fun holds => unbroken (holds.mono ?_)
  have text : t = Token.renderAll i.children ++ (Quote.mark i.quote ++ r) :=
    (lossless_nameRun rules _).append_eq hc
  rw [text]
  exact ⟨Quote.mark i.quote, Quote.mark i.quote ++ r, by simp⟩

end Runs

end DockerfileSyntax
