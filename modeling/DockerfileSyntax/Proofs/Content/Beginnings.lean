import DockerfileSyntax.Proofs.Content.Joining

/-!
# Beginnings of content

A text that is not content may still be the beginning of some. `Begins` says that it is, and
`Continues` that it is the beginning of an end of content, which may start with a line continuation.
What may go on is put behind what has been read, unit by unit: a unit that was read before some text
may stand before any other text with the same first character, and before none. Where white space is
not content, content neither begins nor goes on with it, unless it is escaped.
-/

namespace DockerfileSyntax

namespace Grammar

open DockerfileSyntax.Parser

variable {rules : ContentRules} {t : Text}

/-- The text is a beginning of content. -/
def Begins (rules : ContentRules) (t : Text) : Prop :=
  ∃ ts u, Word rules ts ∧ ts ≠ [] ∧ Token.renderAll ts = t ++ u

/-- The text is a beginning of an end of content. -/
def Continues (rules : ContentRules) (t : Text) : Prop :=
  ∃ ts u, Suffix rules ts ∧ Token.renderAll ts = t ++ u

/-- An escape character and white space: it is not settled yet whether the line breaks. -/
def IsMark (escape : Char) (t : Text) : Prop :=
  ∃ gap, (∀ c ∈ gap, isInlineBlank c = true) ∧ t = escape :: gap

/-- The text is a beginning of one reference. -/
def BeginsReference (rules : ContentRules) (t : Text) : Prop :=
  ∃ (found : Reference) (u : Text), Part rules found.toToken ∧ found.toToken.render = t ++ u

/-- The text is a beginning of one part of content, or of a line continuation. -/
inductive Starts (rules : ContentRules) : Text → Prop
  | mark {t : Text} : IsMark rules.escape t → Starts rules t
  | reference {t : Text} : BeginsReference rules t → Starts rules t

/-- The text is a beginning of a unit: line continuations, and then one part or another line
continuation starts. -/
def StartsUnit (rules : ContentRules) (t : Text) : Prop :=
  ∃ breaks u, (∀ k ∈ breaks, k.IsBreak rules.escape) ∧ t = breaksText breaks ++ u ∧ Starts rules u

/-- An escape character and two blanks or more, where the line does not break: unless white space is
content, no content begins like that. -/
structure WideMark (escape : Char) (s t : Text) : Prop where
  unbroken : run (continuation escape) s = none
  wide : ∃ gap, (∀ c ∈ gap, isInlineBlank c = true) ∧ 2 ≤ gap.length ∧ t = escape :: gap

/-! ## What completes a beginning -/

/-- `$x`, which may stand anywhere in content. -/
def filler : Token := .reference false [.string ['x']]

theorem part_filler (rules : ContentRules) : Part rules filler := .bare (by decide)

theorem beginsReference_nil (rules : ContentRules) : BeginsReference rules [] :=
  ⟨⟨false, [.string ['x']]⟩, ['$', 'x'], part_filler rules, rfl⟩

theorem starts_nil (rules : ContentRules) : Starts rules [] :=
  .reference (beginsReference_nil rules)

theorem suffix_singleton {t : Token} (part : Part rules t) (unbroken : t.isBreak = false) :
    Suffix rules [t] :=
  Suffix.nil.cons part (by simp) unbroken

theorem begins_of_part {s : Token} {u : Text} (part : Part rules s) (unbroken : s.isBreak = false)
    (text : s.render = t ++ u) : Begins rules t := by
  refine ⟨[s], u, (suffix_singleton part unbroken).word ?_, by simp, by simpa using text⟩
  intro s' hs
  cases hs
  exact unbroken

theorem BeginsReference.begins (h : BeginsReference rules t) : Begins rules t := by
  obtain ⟨found, u, part, text⟩ := h
  exact begins_of_part part rfl text

theorem begins_nil (rules : ContentRules) : Begins rules [] := (beginsReference_nil rules).begins

/-- With a line end behind it, a mark is one more line continuation. -/
theorem IsMark.exists_breaks {e : Char} {breaks : List Continuation}
    (hb : ∀ k ∈ breaks, k.IsBreak e) (h : IsMark e t) :
    ∃ more, (∀ k ∈ more, k.IsBreak e) ∧ breaksText more = breaksText breaks ++ (t ++ ['\n']) := by
  obtain ⟨gap, blank, rfl⟩ := h
  have isBreak : (Continuation.broken e gap ['\n']).IsBreak e :=
    ⟨gap, ['\n'], blank, by simp [lineEnds], rfl⟩
  refine ⟨breaks ++ [.broken e gap ['\n']], ?_, by simp [breaksText, render_broken]⟩
  exact List.forall_mem_append.mpr ⟨hb, by simpa using isBreak⟩

theorem continues_behind_breaks {breaks : List Continuation} {s : Token} {u : Text}
    (hb : ∀ k ∈ breaks, k.IsBreak rules.escape) (part : Part rules s) (unbroken : s.isBreak = false)
    (text : breaksText breaks ++ s.render = t ++ u) : Continues rules t := by
  refine ⟨_, u, (suffix_singleton part unbroken).breaks (by simp) hb, ?_⟩
  rw [Token.renderAll_append]
  show breaksText breaks ++ Token.renderAll [s] = t ++ u
  simpa using text

/-- What starts a unit goes on: at the latest, the line breaks once more. -/
theorem StartsUnit.continues (h : StartsUnit rules t) : Continues rules t := by
  obtain ⟨breaks, t, hb, rfl, h⟩ := h
  cases h with
  | mark h =>
    obtain ⟨more, all, text⟩ := h.exists_breaks hb
    exact continues_behind_breaks all (part_filler rules) rfl (u := '\n' :: filler.render)
      (by simp [text])
  | reference h =>
    obtain ⟨found, u, part, text⟩ := h
    exact continues_behind_breaks hb part rfl (u := u) (by simp [text])

/-- Where the line does not break, a unit starts without line continuations. -/
theorem StartsUnit.starts {s : Text} (h : StartsUnit rules t)
    (unbroken : run (continuation rules.escape) s = none) (isPrefix : t <+: s) :
    Starts rules t := by
  obtain ⟨_ | ⟨k, breaks⟩, u, all, rfl, starts⟩ := h
  · exact starts
  · obtain ⟨r, rfl⟩ := isPrefix
    have broken := run_continuation_of_isBreak (all k List.mem_cons_self)
      (breaksText breaks ++ u ++ r)
    simp only [breaksText_cons, List.append_assoc] at unbroken broken
    rw [unbroken] at broken
    cases broken

theorem not_isLineEnd_of_isInlineBlank {c : Char} (h : isInlineBlank c = true) :
    isLineEnd c = false := by
  rw [isInlineBlank, Bool.and_eq_true, Bool.not_eq_true'] at h
  exact h.2

/-- White space stands for itself where it is content. -/
theorem startsPlain_blank (he : IsEscape rules.escape) (content : rules.spacing = .content)
    (free : ∀ c ∈ rules.excluded, isInlineBlank c = false) {c : Char}
    (blank : isInlineBlank c = true) (s : Text) : startsPlain rules (c :: s) = true := by
  have differs {d : Char} (hd : isInlineBlank d = false) : c ≠ d := by
    rintro rfl
    rw [blank] at hd
    cases hd
  refine startsPlain_cons.mpr ⟨differs he.not_isInlineBlank, not_isLineEnd_of_isInlineBlank blank,
    fun mem => differs (free c mem) rfl, fun _ => content, ?_⟩
  rw [startsReference_cons, beq_false_of_ne (differs (by decide)), Bool.false_and]

/-- White space spells itself where it is content. -/
theorem spells_blanks (he : IsEscape rules.escape) (content : rules.spacing = .content)
    (free : ∀ c ∈ rules.excluded, isInlineBlank c = false) {gap : Text}
    (blank : ∀ c ∈ gap, isInlineBlank c = true) : Spells rules gap := by
  induction gap with
  | nil => exact .nil
  | cons c gap ih =>
    obtain ⟨first, others⟩ := List.forall_mem_cons.mp blank
    have plain := startsPlain_blank he content free first gap
    exact (spells_plain_iff (startsPlain_cons.mp plain).1).mpr ⟨plain, ih others⟩

/-- Under these rules an escape character and any white space begin content. -/
def WideMarksBegin (rules : ContentRules) : Prop :=
  rules.spacing = .content ∧ ∀ c ∈ rules.excluded, isInlineBlank c = false

theorem wideMarksBegin_word (e : Char) : WideMarksBegin (.word e) := by
  refine ⟨rfl, fun c hc => ?_⟩
  rw [List.mem_singleton.mp hc]
  decide

theorem wideMarksBegin_quoted (e : Char) (quote : Quote) : WideMarksBegin (.quoted e quote) := by
  refine ⟨rfl, fun c hc => ?_⟩
  rw [List.mem_singleton.mp hc]
  cases quote <;> decide

/-- An escape character begins content if at most one blank follows, and with any white space where
that is content. -/
theorem begins_mark (he : IsEscape rules.escape) {gap : Text}
    (blank : ∀ c ∈ gap, isInlineBlank c = true) (few : gap.length ≤ 1 ∨ WideMarksBegin rules) :
    Begins rules (rules.escape :: gap) := by
  have string {text u : Text} (spells : Spells rules (rules.escape :: text)) (h : text = gap ++ u) :
      Begins rules (rules.escape :: gap) :=
    begins_of_part (u := u) (.string (by simp) spells) rfl (by simp [h])
  cases gap with
  | nil => exact string (.pair (c := 'x') rfl .nil) rfl
  | cons c gap =>
    obtain ⟨first, others⟩ := List.forall_mem_cons.mp blank
    have spells : Spells rules gap := by
      rcases few with few | ⟨content, free⟩
      · rw [List.length_cons] at few
        rw [List.length_eq_zero_iff.mp (by omega : gap.length = 0)]
        exact .nil
      · exact spells_blanks he content free others
    exact string (.pair (not_isLineEnd_of_isInlineBlank first) spells) (List.append_nil _).symm

theorem WideMark.begins {s : Text} (he : IsEscape rules.escape) (hr : WideMarksBegin rules)
    (h : WideMark rules.escape s t) : Begins rules t := by
  obtain ⟨gap, blank, -, rfl⟩ := h.wide
  exact begins_mark he blank (.inr hr)

theorem WideMark.isMark {e : Char} {s : Text} (h : WideMark e s t) : IsMark e t := by
  obtain ⟨gap, blank, -, rfl⟩ := h.wide
  exact ⟨gap, blank, rfl⟩

theorem IsMark.begins_or_wide {s : Text} (he : IsEscape rules.escape) (h : IsMark rules.escape t)
    (unbroken : run (continuation rules.escape) s = none) :
    Begins rules t ∨ WideMark rules.escape s t := by
  obtain ⟨gap, blank, rfl⟩ := h
  by_cases few : gap.length ≤ 1
  · exact .inl (begins_mark he blank (.inl few))
  · exact .inr ⟨unbroken, gap, blank, by omega, rfl⟩

/-! ## Behind what has been read -/

/-- A dollar sign is told from a reference by the next character. -/
theorem startsPlain_cons_of_head {c : Char} {m n : Text} (h : startsPlain rules (c :: m) = true)
    (next : n = [] ∨ n.head? = m.head?) : startsPlain rules (c :: n) = true := by
  rw [startsPlain_cons] at h ⊢
  obtain ⟨notEscape, inLine, allowed, blank, notReference⟩ := h
  refine ⟨notEscape, inLine, allowed, blank, ?_⟩
  rcases n with _ | ⟨d, n⟩
  · exact startsReference_of_append (s := []) notReference
  · rcases m with _ | ⟨d', m⟩
    · simp at next
    · obtain rfl : d = d' := by simpa using next
      rw [startsReference_cons, Bool.and_eq_false_imp] at notReference ⊢
      exact notReference

section

variable {word : Parser (List Token)} [Regular word] {s m : Text} {part : Token}

/-- The first unit is one part, without line continuations before it. -/
theorem part_of_firstUnit {item : List Token}
    (h : run (firstUnit word rules) s = some (item, m)) :
    ∃ part, item = [part] ∧ run (unitPart word rules) s = some (part, m) := by
  obtain ⟨unbroken, hu⟩ := run_firstUnit_eq_some.mp h
  obtain ⟨_ | ⟨k, breaks⟩, t, part, all, -, split, read, rfl⟩ := run_unit_eq_some.mp hu
  · exact ⟨part, rfl, by rw [split]; exact read⟩
  · rw [split, breaksText_cons, List.append_assoc,
      run_continuation_of_isBreak (all k List.mem_cons_self)] at unbroken
    cases unbroken

/-- What has been read as one part of content may stand before the end of another word, if there is
none or if that begins like what has been behind it. -/
theorem suffix_behind_part (hw : ReadsWords rules.escape word)
    (h : run (unitPart word rules) s = some (part, m)) {ts : List Token} (suffix : Suffix rules ts)
    (next : Token.renderAll ts = [] ∨ (Token.renderAll ts).head? = m.head?) :
    ∃ t others, t.isBreak = false ∧ Suffix rules (t :: others) ∧
      Token.renderAll (t :: others) = part.render ++ Token.renderAll ts := by
  have string {p : Text} (hp : p ≠ []) (result : Suffix rules (prependText p ts)) :
      ∃ t others, t.isBreak = false ∧ Suffix rules (t :: others) ∧
        Token.renderAll (t :: others) = p ++ Token.renderAll ts := by
    have text := renderAll_prependText p ts
    obtain ⟨more, others, eq⟩ := exists_prependText_eq hp ts
    rw [eq] at result text
    exact ⟨_, others, rfl, result, text⟩
  rcases run_unitPart_eq_some.mp h with ⟨found, hf, rfl⟩ | ⟨-, hc⟩
  · obtain ⟨isPart, stop⟩ := run_referenceWith_sound hw hf
    refine ⟨found.toToken, ts, rfl, suffix.cons isPart (fun u hu => ?_) rfl, rfl⟩
    -- the name ended before this character, so that it ends before it again
    obtain ⟨others, rfl⟩ := List.head?_eq_some_iff.mp hu
    obtain ⟨braced, children⟩ := found
    cases braced with
    | true => rfl
    | false =>
      rcases u with ⟨kind, _ | ⟨c, text⟩⟩ | ⟨kind, children'⟩
      · cases kind <;> rfl
      · have here : some c = m.head? := next.resolve_left (List.cons_ne_nil c _)
        have notName := stop rfl c here.symm
        cases kind with
        | string =>
          show (!isVariableNameChar c) = true
          rw [notName]
          rfl
        | _ => rfl
      · rfl
  · rcases run_characterPart_eq_some.mp hc with ⟨c, plain, rfl, rfl⟩ | ⟨-, t, ht, rfl⟩
    · refine string (by simp) (suffix.prepend (m := []) (by simp) (.inl ⟨c, rfl, ?_⟩))
      rw [List.append_nil]
      exact startsPlain_cons_of_head plain next
    · obtain ⟨c, inLine, -, rfl, -⟩ := run_escapedChar_eq_some.mp ht
      exact string (by simp) (suffix.prepend (m := []) (by simp) (.inr ⟨c, rfl, inLine⟩))

/-- What goes on behind a text that has been read is nothing, or begins as what was left there. -/
theorem Continues.exists_suffix {u : Text} (h : Continues rules u) (isPrefix : u <+: m) :
    ∃ ts v, Suffix rules ts ∧ Token.renderAll ts = u ++ v ∧
      (Token.renderAll ts = [] ∨ (Token.renderAll ts).head? = m.head?) := by
  rcases u with _ | ⟨c, u⟩
  · exact ⟨[], [], Suffix.nil, rfl, .inl rfl⟩
  · obtain ⟨ts, v, suffix, text⟩ := h
    obtain ⟨r, rfl⟩ := isPrefix
    exact ⟨ts, v, suffix, text, .inr (by rw [text]; rfl)⟩

/-- What goes on behind a unit goes on before it. -/
theorem Continues.behind_unit (hw : ReadsWords rules.escape word) {item : List Token} {u : Text}
    (h : run (unit word rules) s = some (item, m)) (isPrefix : u <+: m)
    (continues : Continues rules u) : Continues rules (Token.renderAll item ++ u) := by
  obtain ⟨breaks, t, part, all, -, -, hp, rfl⟩ := run_unit_eq_some.mp h
  obtain ⟨ts, v, suffix, text, next⟩ := continues.exists_suffix isPrefix
  obtain ⟨first, others, -, suffix, text'⟩ := suffix_behind_part hw hp suffix next
  refine ⟨_, v, suffix.breaks (by simp) all, ?_⟩
  rw [Token.renderAll_append, text', text, Token.renderAll_append]
  simp

/-- What goes on behind the first unit makes content begin there. -/
theorem Continues.begins (hw : ReadsWords rules.escape word) {item : List Token} {u : Text}
    (h : run (firstUnit word rules) s = some (item, m)) (isPrefix : u <+: m)
    (continues : Continues rules u) : Begins rules (Token.renderAll item ++ u) := by
  obtain ⟨part, rfl, read⟩ := part_of_firstUnit h
  obtain ⟨ts, v, suffix, text, next⟩ := continues.exists_suffix isPrefix
  obtain ⟨first, others, unbroken, suffix, text'⟩ := suffix_behind_part hw read suffix next
  refine ⟨first :: others, v, suffix.word ?_, by simp, by rw [text', text]; simp⟩
  intro t ht
  cases ht
  exact unbroken

/-- What goes on behind units goes on before them. -/
theorem Continues.behind_units (hw : ReadsWords rules.escape word)
    (lossless : Lossless word Token.renderAll) {items : List (List Token)} {u : Text}
    (steps : Steps (unit word rules) s items m) (isPrefix : u <+: m)
    (continues : Continues rules u) :
    Continues rules (Token.renderAll items.flatten ++ u) := by
  induction steps with
  | nil => exact continues
  | @cons s n r item items first _ rest ih =>
    have behind : n = Token.renderAll items.flatten ++ r := by
      rw [renderAll_flatten]
      exact (lossless_unit lossless rules).steps rest
    have later := ih isPrefix
    rw [List.flatten_cons, Token.renderAll_append, List.append_assoc]
    refine later.behind_unit hw first ?_
    rw [behind]
    exact (List.prefix_append_right_inj _).mpr isPrefix

end

end Grammar

/-! ## White space -/

section

open Grammar

variable {t : Text}

theorem Spells.head_notBlank {rules : ContentRules} (he : IsEscape rules.escape)
    (hs : rules.spacing ≠ .content) {c : Char} (h : Spells rules (c :: t)) :
    isInlineBlank c = false := by
  cases h with
  | pair _ _ => exact he.not_isInlineBlank
  | plain _ _ _ blank _ _ =>
    rw [← Bool.not_eq_true]
    exact fun isBlank => hs (blank isBlank)

/-- No part of content begins with white space, unless that is content. -/
theorem Part.head_notBlank {rules : ContentRules} (he : IsEscape rules.escape)
    (hs : rules.spacing ≠ .content) {part : Token} (h : Part rules part) {c : Char}
    (text : part.render = c :: t) : isInlineBlank c = false := by
  rcases h.shape with ⟨string, rfl, -, spells⟩ | ⟨k, rfl, gap, ending, -, -, rfl⟩ |
    ⟨braced, children, rfl⟩
  · have same : string = c :: t := text
    exact Spells.head_notBlank he hs (same ▸ spells)
  · rw [render_broken] at text
    rw [← (List.cons.inj text).1]
    exact he.not_isInlineBlank
  · obtain ⟨m, reference⟩ := render_reference_cons braced children
    rw [← (List.cons.inj (reference.symm.trans text)).1]
    decide

/-- No end of content begins with white space, unless that is content. -/
theorem head_notBlank_of_parts {rules : ContentRules} (he : IsEscape rules.escape)
    (hs : rules.spacing ≠ .content) {ts : List Token} (parts : ∀ t ∈ ts, Part rules t) {r : Text}
    (rest : ∀ c t, r = c :: t → isInlineBlank c = false) {c : Char}
    (text : Token.renderAll ts ++ r = c :: t) : isInlineBlank c = false := by
  cases ts with
  | nil => exact rest c t text
  | cons first others =>
    have part := parts first List.mem_cons_self
    obtain ⟨d, m, here⟩ := List.exists_cons_of_ne_nil part.render_ne_nil
    rw [Token.renderAll, here] at text
    rw [← (List.cons.inj text).1]
    exact part.head_notBlank he hs here

/-- Behind an escaped character at its beginning, content goes on with no white space. -/
theorem head_notBlank_behind_escaped {rules : ContentRules} (he : IsEscape rules.escape)
    (hs : rules.spacing ≠ .content) {ts : List Token} (h : Word rules ts) (nonempty : ts ≠ [])
    {r m : Text} (rest : ∀ c t, r = c :: t → isInlineBlank c = false) {c d : Char}
    (text : Token.renderAll ts ++ r = rules.escape :: c :: d :: m) : isInlineBlank d = false := by
  obtain ⟨first, others, rfl⟩ := List.exists_cons_of_ne_nil nonempty
  have later := head_notBlank_of_parts (t := m) (c := d) he hs
    (fun t ht => h.parts t (List.mem_cons_of_mem first ht)) rest
  rcases (h.parts first List.mem_cons_self).shape with ⟨string, rfl, some, spells⟩ | ⟨k, rfl, -⟩ |
    ⟨braced, children, rfl⟩
  · rw [Token.renderAll, List.append_assoc] at text
    cases spells with
    | nil => exact absurd rfl some
    | @pair c' string inLine spells =>
      have text : string ++ (Token.renderAll others ++ r) = d :: m :=
        (List.cons.inj (List.cons.inj text).2).2
      cases string with
      | nil => exact later text
      | cons d' string =>
        rw [← (List.cons.inj text).1]
        exact spells.head_notBlank he hs
    | plain notEscape _ _ _ _ _ => exact absurd (List.cons.inj text).1 notEscape
  · cases h.joined.first _ rfl
  · obtain ⟨n, reference⟩ := render_reference_cons braced children
    rw [Token.renderAll, reference] at text
    exact absurd (List.cons.inj text).1.symm he.ne_dollar

end

end DockerfileSyntax
