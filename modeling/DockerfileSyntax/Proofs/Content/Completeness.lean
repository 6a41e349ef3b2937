import DockerfileSyntax.Proofs.Content.Soundness

/-!
# Every well-formed content is read

A word in front of a text that cannot be taken for a part of it is read back token by token:
`run_content_of_word`. A word is read from its beginning, unit by unit; the line continuations that
have been passed wait for the next string or reference, which is read together with them.
-/

namespace DockerfileSyntax

open Grammar DockerfileSyntax.Parser

/-! ## What may stand behind content -/

/-- Behind the tokens, `r` does not change how they read: it goes on with no name and no opening
brace, and if the line breaks there, then no string can end with an escaped white space. -/
structure Boundary (ts : List Token) (r : Text) : Prop where
  notName : ∀ c, r.head? = some c → isVariableNameChar c = false ∧ c ≠ '\x7b'
  unbroken : breaksLine r = true → ∀ text, Token.string text ∈ ts → ∀ c ∈ text,
    isInlineBlank c = false

theorem breaksLine_cons {c : Char} {s : Text} (h : isInlineBlank c = true) :
    breaksLine (c :: s) = breaksLine s := by
  rw [breaksLine, List.dropWhile_cons_of_pos h]
  rfl

theorem breaksLine_of_head {c : Char} {s : Text} (blank : isInlineBlank c = false)
    (inLine : isLineEnd c = false) : breaksLine (c :: s) = false := by
  rw [breaksLine, List.dropWhile_cons_of_neg (by simp [blank])]
  split
  · next h =>
    rw [(List.cons.inj h).1] at inLine
    exact absurd inLine (by decide)
  · next h =>
    rw [(List.cons.inj h).1] at inLine
    exact absurd inLine (by decide)
  · rfl

/-- A line continuation begins with an escape character, and so the line goes on before it. -/
theorem Continuation.IsBreak.goesOn {e : Char} (he : IsEscape e) {k : Continuation}
    (h : k.IsBreak e) (r : Text) : breaksLine (k.toToken.render ++ r) = false := by
  obtain ⟨gap, ending, -, -, rfl⟩ := h
  rw [render_broken]
  exact breaksLine_of_head he.not_isInlineBlank he.not_isLineEnd

/-- A text within a line breaks the line only if it is blank and the line breaks behind it. -/
theorem breaksLine_append_eq_false {s r : Text} (inLine : ∀ c ∈ s, isLineEnd c = false)
    (h : breaksLine r = true → ∃ c ∈ s, isInlineBlank c = false) : breaksLine (s ++ r) = false := by
  induction s with
  | nil =>
    cases hr : breaksLine r with
    | false => exact hr
    | true =>
      obtain ⟨c, hc, -⟩ := h hr
      cases hc
  | cons c s ih =>
    obtain ⟨first, others⟩ := List.forall_mem_cons.mp inLine
    cases blank : isInlineBlank c with
    | false => exact breaksLine_of_head blank first
    | true =>
      rw [List.cons_append, breaksLine_cons blank]
      refine ih others fun hr => ?_
      obtain ⟨d, hd, notBlank⟩ := h hr
      rcases List.mem_cons.mp hd with rfl | hd
      · rw [blank] at notBlank
        cases notBlank
      · exact ⟨d, hd, notBlank⟩

theorem isVariableNameStart_imp {c : Char} (h : isVariableNameStart c = true) :
    isVariableNameChar c = true := by
  unfold isVariableNameStart at h
  unfold isVariableNameChar Char.isAlphanum
  rcases Bool.or_eq_true_iff.mp h with h | h <;> simp [h]

theorem startsReference_append {c : Char} {t r : Text} (h : startsReference (c :: t) = false)
    (hr : ∀ d, r.head? = some d → isVariableNameChar d = false ∧ d ≠ '\x7b') :
    startsReference (c :: (t ++ r)) = false := by
  rw [← Bool.not_eq_true, startsReference_iff] at h ⊢
  rintro ⟨d, m, hs, hd⟩
  cases t with
  | nil =>
    obtain ⟨notName, notBrace⟩ := hr d (by rw [show r = d :: m from (List.cons.inj hs).2]; rfl)
    rcases hd with rfl | hd
    · exact notBrace rfl
    · rw [isVariableNameStart_imp hd] at notName
      cases notName
  | cons d' t =>
    obtain ⟨rfl, behind⟩ := List.cons.inj hs
    rw [(List.cons.inj behind).1] at h
    exact h ⟨d, t, rfl, hd⟩

theorem Spells.inLine {rules : ContentRules} (he : IsEscape rules.escape) {text : Text}
    (h : Spells rules text) : ∀ c ∈ text, isLineEnd c = false := by
  induction h with
  | nil => simp
  | pair inLine _ ih =>
    exact List.forall_mem_cons.mpr ⟨he.not_isLineEnd, List.forall_mem_cons.mpr ⟨inLine, ih⟩⟩
  | plain _ inLine _ _ _ _ ih => exact List.forall_mem_cons.mpr ⟨inLine, ih⟩

/-! ## Strings -/

section Units

variable {word : Parser (List Token)} [Regular word] {rules : ContentRules}

theorem run_referenceWith_of_not {s : Text} (h : startsReference s = false) :
    run (referenceWith word) s = none := by
  rw [← Bool.not_eq_true, startsReference_iff] at h
  rw [Option.eq_none_iff_forall_ne_some]
  rintro ⟨found, r⟩ hf
  rw [referenceWith, run_firstOf_pair] at hf
  rcases Option.or_eq_some_iff.mp hf with hf | ⟨-, hf⟩
  · obtain ⟨name, isName, rfl, -⟩ := run_bareReference_eq_some.mp hf
    cases name with
    | nil => cases isName
    | cons c name => exact h ⟨c, name ++ r, rfl, .inr (Bool.and_eq_true_iff.mp isName).1⟩
  · obtain ⟨name, t, modified, -, rfl, -⟩ := run_bracedReference_eq_some.mp hf
    exact h ⟨_, _, rfl, .inl rfl⟩

/-- The first unit of a string, before whatever keeps the string as it is. -/
theorem Spells.first_unit (word : Parser (List Token)) [Regular word] (he : IsEscape rules.escape)
    {text r : Text} (h : Spells rules text) (nonempty : text ≠ [])
    (notName : ∀ c, r.head? = some c → isVariableNameChar c = false ∧ c ≠ '\x7b')
    (unbroken : breaksLine r = true → ∀ c ∈ text, isInlineBlank c = false) :
    ∃ p t, text = p ++ t ∧ p ≠ [] ∧ Spells rules t ∧
      run (continuation rules.escape) (text ++ r) = none ∧
      run (unitPart word rules) (text ++ r) = some (.string p, t ++ r) := by
  cases h with
  | nil => exact absurd rfl nonempty
  | @plain c t notEscape inLine allowed blank notReference ht =>
    have notReference' := startsReference_append notReference notName
    have plain : startsPlain rules (c :: (t ++ r)) = true :=
      startsPlain_cons.mpr ⟨notEscape, inLine, allowed, blank, notReference'⟩
    refine ⟨[c], t, rfl, by simp, ht, run_continuation_of_head_ne ?_, ?_⟩
    · intro hc
      exact notEscape (Option.some.inj hc)
    · refine run_unitPart_eq_some.mpr (.inr ⟨run_referenceWith_of_not notReference', ?_⟩)
      exact run_characterPart_eq_some.mpr (.inl ⟨c, plain, rfl, rfl⟩)
  | @pair c t inLine ht =>
    -- two characters that escape would be a line continuation only if the line ended behind them
    have goesOn : breaksLine (c :: t ++ r) = false := by
      refine breaksLine_append_eq_false ?_ fun hr => ?_
      · exact List.forall_mem_cons.mpr ⟨inLine, ht.inLine he⟩
      · exact ⟨c, List.mem_cons_self, unbroken hr c (by simp)⟩
    have notReference : startsReference (rules.escape :: (c :: t ++ r)) = false := by
      rw [← Bool.not_eq_true, startsReference_iff]
      rintro ⟨d, m, hs, -⟩
      exact he.ne_dollar (List.cons.inj hs).1
    have notPlain : startsPlain rules (rules.escape :: (c :: t ++ r)) = false := by
      rw [← Bool.not_eq_true, startsPlain_cons]
      intro h
      exact h.1 rfl
    refine ⟨[rules.escape, c], t, rfl, by simp, ht, run_continuation_escape goesOn, ?_⟩
    refine run_unitPart_eq_some.mpr (.inr ⟨run_referenceWith_of_not notReference, ?_⟩)
    refine run_characterPart_eq_some.mpr (.inr ⟨notPlain, _, ?_, rfl⟩)
    exact run_escapedChar_eq_some.mpr ⟨c, inLine, goesOn, rfl, rfl⟩

/-- Behind line continuations, a unit is read with them. -/
theorem run_unit_of_part (breaks : List Continuation) (hb : ∀ k ∈ breaks, k.IsBreak rules.escape)
    {t r : Text} {part : Token} (unbroken : run (continuation rules.escape) t = none)
    (h : run (unitPart word rules) t = some (part, r)) :
    run (unit word rules) (breaksText breaks ++ t) =
      some (breaks.map Continuation.toToken ++ [part], r) :=
  run_unit_eq_some.mpr ⟨breaks, t, part, hb, unbroken, rfl, h, rfl⟩

/-- Behind line continuations, no unit is read where none is read without them. -/
theorem run_unit_of_breaks {breaks : List Continuation}
    (hb : ∀ k ∈ breaks, k.IsBreak rules.escape) {t : Text}
    (unbroken : run (continuation rules.escape) t = none) (h : run (unit word rules) t = none) :
    run (unit word rules) (breaksText breaks ++ t) = none := by
  rw [Option.eq_none_iff_forall_ne_some]
  rintro ⟨item, r⟩ hr
  obtain ⟨breaks', t', part, all, stop, hs, hp, -⟩ := run_unit_eq_some.mp hr
  obtain ⟨-, rfl⟩ := breaks_unique hb all unbroken stop hs
  have here := run_unit_of_part [] (by simp) stop hp
  rw [breaksText_nil, List.nil_append, h] at here
  cases here

theorem prependText_prependText (s t : Text) (ts : List Token) :
    prependText s (prependText t ts) = prependText (s ++ t) ts := by
  cases t with
  | nil => rw [prependText_nil, List.append_nil]
  | cons c t => exact prependText_append (by simp) ts

/-- A string is read character by character. -/
theorem Spells.steps (word : Parser (List Token)) [Regular word] (he : IsEscape rules.escape)
    {text r : Text} (h : Spells rules text)
    (notName : ∀ c, r.head? = some c → isVariableNameChar c = false ∧ c ≠ '\x7b')
    (unbroken : breaksLine r = true → ∀ c ∈ text, isInlineBlank c = false) :
    ∃ items, Steps (unit word rules) (text ++ r) items r ∧
      ∀ ts, mergeStrings (items.flatten ++ ts) = prependText text (mergeStrings ts) := by
  by_cases nonempty : text = []
  · subst nonempty
    exact ⟨[], .nil r, fun ts => (prependText_nil _).symm⟩
  · obtain ⟨p, t, rfl, hp, ht, stop, part⟩ := h.first_unit word he nonempty notName unbroken
    have less : t.length < (p ++ t).length := by
      rw [List.length_append]
      exact Nat.lt_add_of_pos_left (List.length_pos_iff.mpr hp)
    obtain ⟨items, steps, merged⟩ := ht.steps word he notName fun hr c hc =>
      unbroken hr c (List.mem_append_right p hc)
    have first := run_unit_of_part [] (by simp) stop part
    refine ⟨[.string p] :: items, .cons first ?_ steps, fun ts => ?_⟩
    · simp only [List.length_append] at less ⊢
      omega
    · rw [List.flatten_cons, List.append_assoc, List.singleton_append, mergeStrings_string, merged,
        prependText_prependText]
termination_by text.length

/-! ## Words -/

/-- The grammar of words reads these references wherever no name goes on behind them. -/
def ReadsReferences (word : Parser (List Token)) (ts : List Token) : Prop :=
  ∀ braced children, Token.reference braced children ∈ ts → ∀ r : Text,
    (braced = false → ∀ c, r.head? = some c → isVariableNameChar c = false) →
    run (referenceWith word) ((Token.reference braced children).render ++ r) =
      some (⟨braced, children⟩, r)

theorem Part.shape {t : Token} (h : Part rules t) :
    (∃ text, t = .string text ∧ text ≠ [] ∧ Spells rules text) ∨
    (∃ k : Continuation, t = k.toToken ∧ k.IsBreak rules.escape) ∨
    ∃ braced children, t = .reference braced children := by
  cases h with
  | string nonempty spells => exact .inl ⟨_, rfl, nonempty, spells⟩
  | continuation isBreak => exact .inr (.inl ⟨_, rfl, isBreak⟩)
  | bare _ => exact .inr (.inr ⟨_, _, rfl⟩)
  | braced _ => exact .inr (.inr ⟨_, _, rfl⟩)
  | modified _ _ _ _ => exact .inr (.inr ⟨_, _, rfl⟩)

theorem render_reference_cons (braced : Bool) (children : List Token) :
    ∃ m, (Token.reference braced children).render = '$' :: m := by
  cases braced with
  | true => exact ⟨_, rfl⟩
  | false => exact ⟨_, rfl⟩

/-- No part of content is without text. -/
theorem Part.render_ne_nil {t : Token} (h : Part rules t) : t.render ≠ [] := by
  rcases h.shape with ⟨text, rfl, nonempty, -⟩ | ⟨k, rfl, isBreak⟩ | ⟨braced, children, rfl⟩
  · exact nonempty
  · obtain ⟨gap, ending, -, -, rfl⟩ := isBreak
    rw [render_broken]
    simp
  · obtain ⟨m, hm⟩ := render_reference_cons braced children
    rw [hm]
    simp

/-- Before the end of a word: behind a token that no string may follow, the text goes on with no
name, and the line breaks there only if it breaks behind the word. -/
theorem Suffix.next {ts : List Token} (he : IsEscape rules.escape) (h : Suffix rules ts)
    (notString : ∀ text, ts.head? ≠ some (.string text)) {r : Text}
    (notName : ∀ c, r.head? = some c → isVariableNameChar c = false ∧ c ≠ '\x7b') :
    (∀ c, (Token.renderAll ts ++ r).head? = some c → isVariableNameChar c = false ∧ c ≠ '\x7b') ∧
      (breaksLine (Token.renderAll ts ++ r) = true → ts = [] ∧ breaksLine r = true) := by
  have begins (c : Char) (m : Text) (hc : c = rules.escape ∨ c = '$') :
      (∀ d, (c :: m).head? = some d → isVariableNameChar d = false ∧ d ≠ '\x7b') ∧
        breaksLine (c :: m) = false := by
    rcases hc with rfl | rfl
    · refine ⟨fun d hd => ?_, breaksLine_of_head he.not_isInlineBlank he.not_isLineEnd⟩
      rw [← Option.some.inj hd]
      exact ⟨he.not_isVariableNameChar, he.ne_openingBrace⟩
    · refine ⟨fun d hd => ?_, breaksLine_of_head (by decide) (by decide)⟩
      rw [← Option.some.inj hd]
      decide
  cases ts with
  | nil => exact ⟨notName, fun hr => ⟨rfl, hr⟩⟩
  | cons t ts =>
    have text : ∃ c m, Token.renderAll (t :: ts) ++ r = c :: m ∧ (c = rules.escape ∨ c = '$') := by
      rcases (h.parts t List.mem_cons_self).shape with ⟨text, rfl, -⟩ | ⟨k, rfl, isBreak⟩ |
        ⟨braced, children, rfl⟩
      · exact absurd rfl (notString text)
      · obtain ⟨gap, ending, -, -, rfl⟩ := isBreak
        rw [Token.renderAll, render_broken]
        exact ⟨_, _, rfl, .inl rfl⟩
      · obtain ⟨m, hm⟩ := render_reference_cons braced children
        rw [Token.renderAll, hm]
        exact ⟨_, _, rfl, .inr rfl⟩
    obtain ⟨c, m, eq, hc⟩ := text
    rw [eq]
    obtain ⟨first, unbroken⟩ := begins c m hc
    refine ⟨first, fun hr => ?_⟩
    rw [unbroken] at hr
    cases hr

/-- Behind a reference without braces no name goes on. -/
theorem Suffix.next_of_reference {children ts : List Token} (he : IsEscape rules.escape)
    (h : Suffix rules (.reference false children :: ts)) {r : Text}
    (notName : ∀ c, r.head? = some c → isVariableNameChar c = false ∧ c ≠ '\x7b') :
    ∀ c, (Token.renderAll ts ++ r).head? = some c → isVariableNameChar c = false := by
  by_cases notString : ∀ text, ts.head? ≠ some (.string text)
  · intro c hc
    exact ((h.tail.next he notString notName).1 c hc).1
  · simp only [not_forall, not_not] at notString
    obtain ⟨text, ht⟩ := notString
    obtain ⟨others, rfl⟩ := List.head?_eq_some_iff.mp ht
    have neighbour := (List.isChain_cons.mp h.neighbours).1 _ rfl
    cases h.parts (.string text) (by simp) with
    | string nonempty _ =>
      cases text with
      | nil => exact absurd rfl nonempty
      | cons d text =>
        intro c hc
        cases hc
        simpa [mayPrecede] using neighbour

/-- A string before the end of a word is read unit by unit, the first unit behind the line
continuations. -/
theorem Suffix.steps_of_string (he : IsEscape rules.escape) {text : Text} {ts : List Token}
    (h : Suffix rules (.string text :: ts)) {r : Text} (boundary : Boundary (.string text :: ts) r)
    {breaks : List Continuation} (hb : ∀ k ∈ breaks, k.IsBreak rules.escape)
    {later : List (List Token)}
    (steps : Steps (unit word rules) (Token.renderAll ts ++ r) later r)
    (merged : mergeStrings later.flatten = ts) :
    ∃ items, Steps (unit word rules)
        (breaksText breaks ++ (Token.renderAll (.string text :: ts) ++ r)) items r ∧
      mergeStrings items.flatten = breaks.map Continuation.toToken ++ .string text :: ts := by
  have notString : ∀ text, ts.head? ≠ some (.string text) := fun more hm => by
    have := (List.isChain_cons.mp h.neighbours).1 _ hm
    cases this
  obtain ⟨notName, unbroken⟩ := h.tail.next he notString boundary.notName
  have notBlank : breaksLine (Token.renderAll ts ++ r) = true → ∀ c ∈ text,
      isInlineBlank c = false := fun hr =>
    boundary.unbroken (unbroken hr).2 text List.mem_cons_self
  cases h.parts _ List.mem_cons_self with
  | string nonempty spells =>
    obtain ⟨p, t, rfl, hp, ht, stop, part⟩ := spells.first_unit word he nonempty notName notBlank
    obtain ⟨items, steps', merged'⟩ := ht.steps word he notName fun hr c hc =>
      notBlank hr c (List.mem_append_right p hc)
    have first := run_unit_of_part breaks hb stop part
    have longer := List.length_pos_iff.mpr hp
    refine ⟨(breaks.map Continuation.toToken ++ [.string p]) :: (items ++ later),
      .cons (by simpa using first) ?_ (steps'.append steps), ?_⟩
    · simp only [Token.renderAll, Token.render, List.length_append]
      omega
    · rw [List.flatten_cons, List.flatten_append, List.append_assoc, mergeStrings_breaks,
        List.singleton_append, mergeStrings_string, merged', prependText_prependText, merged]
      exact congrArg _ (prependText_of_not_string nonempty notString)

/-- A reference before the end of a word is one unit, behind the line continuations. -/
theorem Suffix.steps_of_reference (he : IsEscape rules.escape) {braced : Bool}
    {children ts : List Token} (h : Suffix rules (.reference braced children :: ts))
    (refs : ReadsReferences word (.reference braced children :: ts)) {r : Text}
    (boundary : Boundary (.reference braced children :: ts) r) {breaks : List Continuation}
    (hb : ∀ k ∈ breaks, k.IsBreak rules.escape) {later : List (List Token)}
    (steps : Steps (unit word rules) (Token.renderAll ts ++ r) later r)
    (merged : mergeStrings later.flatten = ts) :
    ∃ items, Steps (unit word rules)
        (breaksText breaks ++ (Token.renderAll (.reference braced children :: ts) ++ r)) items r ∧
      mergeStrings items.flatten =
        breaks.map Continuation.toToken ++ .reference braced children :: ts := by
  have stop : braced = false →
      ∀ c, (Token.renderAll ts ++ r).head? = some c → isVariableNameChar c = false := by
    rintro rfl
    exact h.next_of_reference he boundary.notName
  have found := refs braced children List.mem_cons_self _ stop
  obtain ⟨m, hm⟩ := render_reference_cons braced children
  have unbroken : run (continuation rules.escape)
      ((Token.reference braced children).render ++ (Token.renderAll ts ++ r)) = none := by
    rw [hm]
    exact run_continuation_of_head_ne fun hc => he.ne_dollar (Option.some.inj hc).symm
  have first := run_unit_of_part breaks hb unbroken
    (run_unitPart_eq_some.mpr (.inl ⟨_, found, rfl⟩))
  refine ⟨(breaks.map Continuation.toToken ++ [.reference braced children]) :: later,
    .cons ?_ ?_ steps, ?_⟩
  · rw [Token.renderAll, List.append_assoc]
    exact first
  · have longer : 0 < (Token.reference braced children).render.length := by
      rw [hm]
      exact Nat.succ_pos _
    simp only [Token.renderAll, List.length_append]
    omega
  · rw [List.flatten_cons, List.append_assoc, mergeStrings_breaks, List.singleton_append,
      mergeStrings_node, merged]

/-- The tokens at the end of a word, behind line continuations, are read unit by unit. -/
theorem Suffix.steps (he : IsEscape rules.escape) {ts : List Token} (h : Suffix rules ts)
    (refs : ReadsReferences word ts) {r : Text} (boundary : Boundary ts r)
    {breaks : List Continuation} (hb : ∀ k ∈ breaks, k.IsBreak rules.escape)
    (pending : ts = [] → breaks = []) :
    ∃ items, Steps (unit word rules) (breaksText breaks ++ (Token.renderAll ts ++ r)) items r ∧
      mergeStrings items.flatten = breaks.map Continuation.toToken ++ ts := by
  -- line continuations are collected until the unit comes that is read behind them
  induction ts generalizing breaks with
  | nil =>
    rw [pending rfl]
    exact ⟨[], .nil r, rfl⟩
  | cons t ts ih =>
    have refs' : ReadsReferences word ts := fun braced children hm =>
      refs braced children (List.mem_cons_of_mem t hm)
    have boundary' : Boundary ts r := ⟨boundary.notName, fun hr text hm =>
      boundary.unbroken hr text (List.mem_cons_of_mem t hm)⟩
    have later := @ih h.tail refs' boundary'
    rcases (h.parts t List.mem_cons_self).shape with ⟨text, rfl, -⟩ | ⟨k, rfl, isBreak⟩ |
      ⟨braced, children, rfl⟩
    · obtain ⟨items, steps, merged⟩ := @later [] (by simp) fun _ => rfl
      exact h.steps_of_string he boundary hb steps merged
    · -- the break waits for the next string or reference
      have more : ts ≠ [] := by
        rintro rfl
        have := h.last _ rfl
        cases this
      have all : ∀ b ∈ breaks ++ [k], b.IsBreak rules.escape := by
        intro b hb'
        rcases List.mem_append.mp hb' with hb' | hb'
        · exact hb b hb'
        · rw [List.mem_singleton.mp hb']
          exact isBreak
      obtain ⟨items, steps, merged⟩ := later all fun hts => absurd hts more
      refine ⟨items, ?_, by simpa using merged⟩
      simpa [breaksText] using steps
    · obtain ⟨items, steps, merged⟩ := @later [] (by simp) fun _ => rfl
      exact h.steps_of_reference he refs boundary hb steps merged

/-- A word is read unit by unit, and the first unit has no line continuation before it. -/
theorem Word.steps (he : IsEscape rules.escape) {ts : List Token} (h : Word rules ts)
    (refs : ReadsReferences word ts) {r : Text} (boundary : Boundary ts r) :
    ∃ items, Steps (unit word rules) (Token.renderAll ts ++ r) items r ∧
      mergeStrings items.flatten = ts ∧
      (ts ≠ [] → run (continuation rules.escape) (Token.renderAll ts ++ r) = none) := by
  obtain ⟨items, steps, merged⟩ := h.suffix.steps he refs boundary (by simp) fun _ => rfl
  refine ⟨items, steps, merged, fun nonempty => ?_⟩
  cases items with
  | nil => exact absurd merged.symm nonempty
  | cons item items =>
    cases steps with
    | cons first shorter rest =>
      obtain ⟨breaks, t, part, all, unbroken, hs, hp, rfl⟩ := run_unit_eq_some.mp first
      cases breaks with
      | nil =>
        rw [breaksText_nil, List.nil_append, List.nil_append] at hs
        rw [hs]
        exact unbroken
      | cons k breaks =>
        rw [List.flatten_cons, List.append_assoc, mergeStrings_breaks, List.map_nil,
          List.nil_append] at merged
        have := h.joined.first k.toToken (by rw [← merged]; rfl)
        cases this

/-- No unit begins where neither an escape character nor a reference nor a plain character does. -/
theorem run_unit_of_not {s : Text} (notEscape : s.head? ≠ some rules.escape)
    (notReference : startsReference s = false) (notPlain : startsPlain rules s = false) :
    run (unit word rules) s = none := by
  rw [Option.eq_none_iff_forall_ne_some]
  rintro ⟨ts, m⟩ h
  obtain ⟨breaks, t, part, all, -, rfl, hp, -⟩ := run_unit_eq_some.mp h
  cases breaks with
  | cons k breaks =>
    obtain ⟨gap, ending, -, -, rfl⟩ := all k List.mem_cons_self
    rw [breaksText_cons, render_broken] at notEscape
    exact notEscape rfl
  | nil =>
    rw [breaksText_nil, List.nil_append] at notEscape notReference notPlain
    rcases run_unitPart_eq_some.mp hp with ⟨found, hf, -⟩ | ⟨-, hc⟩
    · rw [run_referenceWith_of_not notReference] at hf
      cases hf
    · rcases run_characterPart_eq_some.mp hc with ⟨d, plain, -, -⟩ | ⟨-, t', ht, -⟩
      · rw [plain] at notPlain
        cases notPlain
      · obtain ⟨d, -, -, -, rfl⟩ := run_escapedChar_eq_some.mp ht
        exact notEscape rfl

theorem run_unit_nil : run (unit word rules) [] = none :=
  run_unit_of_not (by simp) rfl rfl

/-- No unit begins with a character that ends the content. -/
theorem run_unit_of_excluded {c : Char} {r : Text} (excluded : c ∈ rules.excluded)
    (notEscape : c ≠ rules.escape) (notDollar : c ≠ '$') :
    run (unit word rules) (c :: r) = none := by
  refine run_unit_of_not (fun hc => notEscape (Option.some.inj hc)) ?_ ?_
  · rw [← Bool.not_eq_true, startsReference_iff]
    rintro ⟨d, m, hs, -⟩
    exact notDollar (List.cons.inj hs).1
  · rw [← Bool.not_eq_true, startsPlain_cons]
    intro h
    exact h.2.2.1 excluded

end Units

/-! ## Content -/

section Content

variable {rules : ContentRules}

/-- Content goes on as long as there are units behind the word. -/
theorem run_content_of_units (he : IsEscape rules.escape) (hs : rules.spacing ≠ .separates)
    {ts : List Token} (h : Word rules ts) (nonempty : ts ≠ [])
    (refs : ReadsReferences (content (.word rules.escape)) ts) {r m : Text}
    (boundary : Boundary ts r) {more : List (List Token)}
    (hm : run (many (unit (content (.word rules.escape)) rules)) r = some (more, m)) :
    ∃ items : List (List Token), mergeStrings items.flatten = ts ∧
      run (content rules) (Token.renderAll ts ++ r) =
        some (mergeStrings (items.flatten ++ more.flatten), m) := by
  obtain ⟨items, steps, merged, unbroken⟩ := h.steps he refs boundary
  refine ⟨items, merged, ?_⟩
  cases items with
  | nil => exact absurd merged.symm nonempty
  | cons item items =>
    cases steps with
    | cons first _ rest =>
      rw [content_eq, contentWith, laterUnit_eq_unit _ hs]
      refine run_bind_eq_some.mpr
        ⟨item, _, run_firstUnit_eq_some.mpr ⟨unbroken nonempty, first⟩, ?_⟩
      refine run_bind_eq_some.mpr ⟨items ++ more, m, run_many_of_steps rest hm, ?_⟩
      simp

/-- A word is content where no unit follows it. -/
theorem run_content_of_word (he : IsEscape rules.escape) (hs : rules.spacing ≠ .separates)
    {ts : List Token} (h : Word rules ts) (nonempty : ts ≠ [])
    (refs : ReadsReferences (content (.word rules.escape)) ts) {r : Text}
    (boundary : Boundary ts r)
    (stop : run (unit (content (.word rules.escape)) rules) r = none) :
    run (content rules) (Token.renderAll ts ++ r) = some (ts, r) := by
  obtain ⟨items, merged, h⟩ := run_content_of_units he hs h nonempty refs boundary
    (run_many_of_none stop)
  rw [h, List.flatten_nil, List.append_nil, merged]

theorem run_content_of_none {s : Text}
    (stop : run (unit (content (.word rules.escape)) rules) s = none) :
    run (content rules) s = none := by
  rw [Option.eq_none_iff_forall_ne_some]
  rintro ⟨ts, r⟩ h
  rw [content_eq] at h
  obtain ⟨item, m, hf, -⟩ := run_bind_eq_some.mp h
  rw [(run_firstUnit_eq_some.mp hf).2] at stop
  cases stop

end Content

/-! ## References -/

theorem run_choose_modifier (m : Modifier) (t : Text) :
    run (choose .modifier Modifier.symbol Modifier.all) (m.symbol ++ t) = some (m, t) := by
  obtain ⟨use, colon⟩ := m
  cases use <;> cases colon <;> rfl

theorem run_choose_modifier_closing (t : Text) :
    run (choose .modifier Modifier.symbol Modifier.all) ('\x7d' :: t) = none := rfl

theorem boundary_nil (ts : List Token) : Boundary ts [] := by
  refine ⟨fun c hc => ?_, fun hr => ?_⟩
  · cases hc
  · cases hr

/-- A character that is no part of a name and no white space ends content. -/
theorem boundary_cons {c : Char} (notName : isVariableNameChar c = false) (notBrace : c ≠ '\x7b')
    (notBlank : isInlineBlank c = false) (inLine : isLineEnd c = false) (ts : List Token)
    (r : Text) : Boundary ts (c :: r) := by
  refine ⟨fun d hd => ?_, fun hr => ?_⟩
  · rw [← Option.some.inj hd]
    exact ⟨notName, notBrace⟩
  · rw [breaksLine_of_head notBlank inLine] at hr
    cases hr

theorem run_bareReference_of_brace (s : Text) : run bareReference ('$' :: '\x7b' :: s) = none := by
  rw [Option.eq_none_iff_forall_ne_some]
  rintro ⟨found, m⟩ hf
  obtain ⟨name, isName, hs, -⟩ := run_bareReference_eq_some.mp hf
  cases name with
  | nil => cases isName
  | cons c name =>
    rw [← (List.cons.inj (List.cons.inj hs).2).1] at isName
    cases isName

theorem run_reference_of_bare {e : Char} {name r : Text} (isName : isVariableName name = true)
    (stop : ∀ c, r.head? = some c → isVariableNameChar c = false) :
    run (reference e) ('$' :: (name ++ r)) = some (⟨false, [.string name]⟩, r) := by
  have found : run bareReference ('$' :: (name ++ r)) = some (⟨false, [.string name]⟩, r) :=
    run_bareReference_eq_some.mpr ⟨name, isName, rfl, stop, rfl⟩
  rw [reference, referenceWith, run_firstOf_pair, found, Option.some_or]

theorem run_reference_of_braced {e : Char} {name t r : Text} {modified : List Token}
    (isName : isVariableName name = true)
    (stop : ∀ c, t.head? = some c → isVariableNameChar c = false)
    (hm : run (modification (content (.word e))) t = some (modified, '\x7d' :: r)) :
    run (reference e) ('$' :: '\x7b' :: (name ++ t)) =
      some (⟨true, .string name :: modified⟩, r) := by
  rw [reference, referenceWith, run_firstOf_pair, run_bareReference_of_brace, Option.none_or]
  exact run_bracedReference_eq_some.mpr ⟨name, t, modified, isName, rfl, stop, hm, rfl⟩

/-- A modifier and its word, which may be empty, are read up to the closing brace. -/
theorem run_modification_of_word {e : Char} (he : IsEscape e) (m : Modifier) {word : List Token}
    (isWord : Word (.word e) word) (refs : ReadsReferences (content (.word e)) word) (r : Text) :
    run (modification (content (.word e)))
      (m.symbol ++ (Token.renderAll word ++ '\x7d' :: r)) =
        some ([.symbol m.symbol, .literal none word], '\x7d' :: r) := by
  have he' : IsEscape (ContentRules.word e).escape := he
  have stop : run (unit (content (.word e)) (.word e)) ('\x7d' :: r) = none :=
    run_unit_of_excluded (by simp [ContentRules.word]) he.ne_closingBrace.symm (by decide)
  refine run_modification_eq_some.mpr (.inr ⟨m, _, word, run_choose_modifier m _, rfl, ?_⟩)
  by_cases nonempty : word = []
  · subst nonempty
    exact .inr ⟨rfl, rfl, run_content_of_none stop⟩
  · have boundary : Boundary word ('\x7d' :: r) :=
      boundary_cons (by decide) (by decide) (by decide) (by decide) word r
    exact .inl (run_content_of_word he' (by simp [ContentRules.word]) isWord nonempty refs boundary
      stop)

/-- A well-formed reference is read wherever no name goes on behind it. -/
theorem Part.run_reference {rules : ContentRules} (he : IsEscape rules.escape) {t : Token}
    (h : Part rules t) {braced : Bool} {children : List Token}
    (ht : t = .reference braced children) (r : Text)
    (stop : braced = false → ∀ c, r.head? = some c → isVariableNameChar c = false) :
    run (reference rules.escape) (t.render ++ r) = some (⟨braced, children⟩, r) := by
  -- the induction is on the well-formed token, and so it goes into the words of references
  induction h generalizing braced children r with
  | string _ _ => cases ht
  | continuation _ => cases ht
  | bare isName =>
    cases ht
    simpa using run_reference_of_bare isName (stop rfl)
  | @braced rules name isName =>
    cases ht
    have closed (c : Char) (hc : ('\x7d' :: r).head? = some c) : isVariableNameChar c = false := by
      rw [← Option.some.inj hc]
      decide
    have unmodified : run (modification (content (.word rules.escape))) ('\x7d' :: r) =
        some ([], '\x7d' :: r) :=
      run_modification_eq_some.mpr (.inl ⟨rfl, rfl, run_choose_modifier_closing r⟩)
    simpa using run_reference_of_braced isName closed unmodified
  | @modified rules name m word isName parts joined ih =>
    cases ht
    have refs : ReadsReferences (content (.word rules.escape)) word :=
      fun braced children hm r stop => ih _ hm he rfl r stop
    have modified := run_modification_of_word he m ⟨parts, joined⟩ refs r
    have closed (c : Char)
        (hc : (m.symbol ++ (Token.renderAll word ++ '\x7d' :: r)).head? = some c) :
        isVariableNameChar c = false := by
      obtain ⟨use, colon⟩ := m
      cases use <;> cases colon <;> cases hc <;> decide
    simpa [Quote.mark] using run_reference_of_braced isName closed modified

/-- The references of a word are read as they are. -/
theorem Word.readsReferences {rules : ContentRules} (he : IsEscape rules.escape) {ts : List Token}
    (h : Word rules ts) : ReadsReferences (content (.word rules.escape)) ts :=
  fun _ _ hm r stop => (h.parts _ hm).run_reference he rfl r stop

end DockerfileSyntax
