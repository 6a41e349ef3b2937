import DockerfileSyntax.Proofs.Content.Completeness

/-!
# Values and texts of content

The value of content is its text without line continuations, and nothing else is missing. Only a
line continuation ends a line within content, so that the two are equal if and only if no line ends
in the text: `Word.value_eq_iff`. A line that ends there does so in a line continuation that stands
in the text as it is.
-/

namespace DockerfileSyntax

/-- A line continuation stands somewhere in the text. -/
def HoldsBreak (escape : Char) (text : Text) : Prop :=
  ∃ k : Continuation, k.IsBreak escape ∧ k.toToken.render <:+: text

section Breaks

variable {e : Char} {s t : Text}

theorem HoldsBreak.mono (h : HoldsBreak e s) (within : s <:+: t) : HoldsBreak e t := by
  obtain ⟨k, isBreak, inside⟩ := h
  exact ⟨k, isBreak, inside.trans within⟩

theorem Continuation.IsBreak.newLine_mem {k : Continuation} (h : k.IsBreak e) :
    '\n' ∈ k.toToken.render := by
  obtain ⟨gap, ending, -, isEnd, rfl⟩ := h
  rw [render_broken]
  simp only [lineEnds, List.mem_cons, List.not_mem_nil, or_false] at isEnd
  rcases isEnd with rfl | rfl <;> simp

theorem HoldsBreak.newLine_mem (h : HoldsBreak e s) : '\n' ∈ s := by
  obtain ⟨k, isBreak, inside⟩ := h
  exact inside.subset isBreak.newLine_mem

/-- What a line continuation is made of. -/
theorem Continuation.IsBreak.char_of_mem {k : Continuation} (h : k.IsBreak e) {c : Char}
    (hc : c ∈ k.toToken.render) : c = e ∨ isInlineBlank c = true ∨ isLineEnd c = true := by
  obtain ⟨gap, ending, blank, isEnd, rfl⟩ := h
  rw [render_broken] at hc
  rcases List.mem_cons.mp hc with rfl | hc
  · exact .inl rfl
  rcases List.mem_append.mp hc with hc | hc
  · exact .inr (.inl (blank c hc))
  · simp only [lineEnds, List.mem_cons, List.not_mem_nil, or_false] at isEnd
    rcases isEnd with rfl | rfl
    · have : c = '\r' ∨ c = '\n' := by simpa using hc
      rcases this with rfl | rfl <;> exact .inr (.inr (by decide))
    · obtain rfl : c = '\n' := by simpa using hc
      exact .inr (.inr (by decide))

/-- A list that does not hold `c` stands on one side of a `c`. -/
theorem infix_of_append_cons {l : Text} {c : Char} (h : l <:+: s ++ c :: t)
    (notMem : c ∉ l) : l <:+: s ∨ l <:+: t := by
  obtain ⟨before, behind, h⟩ := h
  rcases List.append_eq_append_iff.mp h with ⟨m, rfl, -⟩ | ⟨m, hl, ht⟩
  · exact .inl ⟨before, m, by simp⟩
  rcases List.append_eq_append_iff.mp hl with ⟨m', rfl, rfl⟩ | ⟨m', rfl, rfl⟩
  · cases m with
    | nil => exact .inl ⟨before, [], by simp⟩
    | cons d m =>
      obtain ⟨rfl, -⟩ := List.cons.inj ht
      exact absurd (List.mem_append_right m' List.mem_cons_self) notMem
  · cases m' with
    | nil =>
      cases l with
      | nil => exact .inl List.nil_infix
      | cons d l =>
        obtain ⟨rfl, -⟩ := List.cons.inj ht
        exact absurd List.mem_cons_self notMem
    | cons d m' =>
      obtain ⟨-, rfl⟩ := List.cons.inj ht
      exact .inr ⟨m', behind, by simp⟩

/-- No line continuation stands across a character that is none of its own. -/
theorem HoldsBreak.of_append_cons {c : Char} (h : HoldsBreak e (s ++ c :: t)) (notEscape : c ≠ e)
    (notBlank : isInlineBlank c = false) (inLine : isLineEnd c = false) :
    HoldsBreak e s ∨ HoldsBreak e t := by
  obtain ⟨k, isBreak, inside⟩ := h
  have notMem : c ∉ k.toToken.render := by
    intro hc
    rcases isBreak.char_of_mem hc with h | h | h
    · exact notEscape h
    · rw [notBlank] at h
      cases h
    · rw [inLine] at h
      cases h
  rcases infix_of_append_cons inside notMem with inside | inside
  · exact .inl ⟨k, isBreak, inside⟩
  · exact .inr ⟨k, isBreak, inside⟩

end Breaks

/-- No line continuation begins with a character that is not the escape character. -/
theorem HoldsBreak.of_cons {e c : Char} {t : Text} (h : HoldsBreak e (c :: t)) (notEscape : c ≠ e) :
    HoldsBreak e t := by
  obtain ⟨k, isBreak, inside⟩ := h
  rcases List.infix_cons_iff.mp inside with ⟨r, begins⟩ | inside
  · obtain ⟨gap, ending, -, -, rfl⟩ := isBreak
    rw [render_broken] at begins
    exact absurd (List.cons.inj begins).1.symm notEscape
  · exact ⟨k, isBreak, inside⟩

/-! ## Values are no longer than texts -/

mutual

theorem Token.value_length_le : ∀ t : Token, t.value.length ≤ t.render.length
  | .leaf kind text => Nat.le_refl _
  | .node kind children => by
    have inner := Token.valueAll_length_le children
    cases kind with
    | continuation => exact Nat.zero_le _
    | keyword | identifier | literal | reference =>
      simp only [Token.value, Token.render, NodeKind.valueOf, List.length_append]
      omega

theorem Token.valueAll_length_le : ∀ ts : List Token,
    (Token.valueAll ts).length ≤ (Token.renderAll ts).length
  | [] => Nat.le_refl _
  | t :: ts => by
    have first := Token.value_length_le t
    have others := Token.valueAll_length_le ts
    simp only [Token.valueAll, Token.renderAll, List.length_append]
    omega

end

/-! ## Values of content -/

theorem not_isLineEnd_of_isVariableNameChar {c : Char} (h : isVariableNameChar c = true) :
    isLineEnd c = false := by
  cases inLine : isLineEnd c with
  | false => rfl
  | true =>
    have lineEnd : c = '\n' ∨ c = '\r' := by simpa [isLineEnd] using inLine
    rcases lineEnd with rfl | rfl <;> cases h

theorem isVariableNameChar_of_mem {name : Text} (h : isVariableName name = true) :
    ∀ c ∈ name, isVariableNameChar c = true := by
  cases name with
  | nil => cases h
  | cons head tail =>
    obtain ⟨isStart, all⟩ := Bool.and_eq_true_iff.mp h
    exact List.forall_mem_cons.mpr
      ⟨isVariableNameStart_imp isStart, fun c hc => List.all_eq_true.mp all c hc⟩

theorem inLine_of_isVariableName {name : Text} (h : isVariableName name = true) :
    ∀ c ∈ name, isLineEnd c = false :=
  fun c hc => not_isLineEnd_of_isVariableNameChar (isVariableNameChar_of_mem h c hc)

theorem Modifier.inLine (m : Modifier) : ∀ c ∈ m.symbol, isLineEnd c = false := by
  have none : m.symbol.all (fun c => !isLineEnd c) = true := by
    obtain ⟨use, colon⟩ := m
    cases use <;> cases colon <;> rfl
  intro c hc
  simpa using List.all_eq_true.mp none c hc

/-- What is true of each part of a list, with its value and its text, for the whole. -/
theorem value_eq_of_parts {e : Char} {ts : List Token}
    (h : ∀ t ∈ ts, (∀ c ∈ t.value, isLineEnd c = false) ∧
      (t.value = t.render ∨ HoldsBreak e t.render)) :
    (∀ c ∈ Token.valueAll ts, isLineEnd c = false) ∧
      (Token.valueAll ts = Token.renderAll ts ∨ HoldsBreak e (Token.renderAll ts)) := by
  induction ts with
  | nil => exact ⟨by simp, .inl rfl⟩
  | cons t ts ih =>
    obtain ⟨⟨inLine, value⟩, others⟩ := List.forall_mem_cons.mp h
    obtain ⟨inLine', value'⟩ := ih others
    refine ⟨fun c hc => ?_, ?_⟩
    · rcases List.mem_append.mp hc with hc | hc
      · exact inLine c hc
      · exact inLine' c hc
    · rcases value with value | holds
      · rcases value' with value' | holds
        · exact .inl (by rw [Token.valueAll, value, value', Token.renderAll])
        · exact .inr (holds.mono (List.infix_append_right ..))
      · exact .inr (holds.mono (List.infix_append_left ..))

/-- No line ends in the value of a part, and a part whose value is not its text holds a line
continuation. -/
theorem Part.value_eq {rules : ContentRules} {t : Token} (h : Part rules t)
    (he : IsEscape rules.escape) :
    (∀ c ∈ t.value, isLineEnd c = false) ∧
      (t.value = t.render ∨ HoldsBreak rules.escape t.render) := by
  induction h with
  | string _ spells => exact ⟨spells.inLine he, .inl rfl⟩
  | @continuation rules children isBreak =>
    exact ⟨by simp, .inr ⟨⟨children⟩, isBreak, List.infix_refl _⟩⟩
  | bare isName =>
    have inLine := inLine_of_isVariableName isName
    exact ⟨by simpa using ⟨by decide, inLine⟩, .inl rfl⟩
  | braced isName =>
    have inLine := inLine_of_isVariableName isName
    exact ⟨by simpa [or_imp, forall_and] using ⟨by decide, by decide, inLine, by decide⟩, .inl rfl⟩
  | @modified rules name m word isName parts joined ih =>
    have inLine := inLine_of_isVariableName isName
    obtain ⟨inLine', value⟩ := value_eq_of_parts fun t ht => ih t ht he
    refine ⟨?_, ?_⟩
    · have symbol := m.inLine
      simpa [or_imp, forall_and] using
        ⟨by decide, by decide, inLine, symbol, inLine', by decide⟩
    · rcases value with value | holds
      · exact .inl (by simp [value, Quote.mark])
      · refine .inr (holds.mono ⟨['$', '\x7b'] ++ name ++ m.symbol, ['\x7d'], ?_⟩)
        simp [Quote.mark]

/-- The value of a word is its text if and only if no line ends in the text. -/
theorem Word.value_eq_iff {rules : ContentRules} {ts : List Token} (h : Word rules ts)
    (he : IsEscape rules.escape) :
    Token.valueAll ts = Token.renderAll ts ↔ '\n' ∉ Token.renderAll ts := by
  obtain ⟨inLine, value⟩ := value_eq_of_parts fun t ht => (h.parts t ht).value_eq he
  constructor
  · intro same newLine
    rw [← same] at newLine
    exact absurd (inLine _ newLine) (by decide)
  · intro noLineEnd
    rcases value with value | holds
    · exact value
    · exact absurd holds.newLine_mem noLineEnd

/-- A line ends within content only in a line continuation. -/
theorem Word.holdsBreak {rules : ContentRules} {ts : List Token} (h : Word rules ts)
    (he : IsEscape rules.escape) (newLine : '\n' ∈ Token.renderAll ts) :
    HoldsBreak rules.escape (Token.renderAll ts) := by
  obtain ⟨inLine, value | holds⟩ := value_eq_of_parts fun t ht => (h.parts t ht).value_eq he
  · rw [← value] at newLine
    exact absurd (inLine _ newLine) (by decide)
  · exact holds

end DockerfileSyntax
