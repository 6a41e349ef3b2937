import DockerfileSyntax.Proofs.Content.Values

/-!
# Texts without their line continuations

`Text.strip` takes the line continuations out of a text and nothing else. It reads the text from
left to right and knows no grammar: an escape character begins a line continuation where white
space and a line end follow it, and escapes the next character elsewhere. Content is read in the
same way, whatever stands in it, and so the value of content is its text without line continuations:
`Word.strip_render`.
-/

namespace DockerfileSyntax

open Token

/-! ## Stripping -/

namespace Text

/-- What stands behind white space and a line end, if the text begins with them. -/
def belowBreak? (s : Text) : Option Text :=
  match s.dropWhile isInlineBlank with
  | '\n' :: r => some r
  | '\r' :: '\n' :: r => some r
  | _ => none

theorem length_belowBreak? {s r : Text} (h : belowBreak? s = some r) : r.length < s.length := by
  have shorter := (List.dropWhile_suffix isInlineBlank (l := s)).length_le
  unfold belowBreak? at h
  split at h
  · next r' hr =>
    cases h
    rw [hr, List.length_cons] at shorter
    omega
  · next r' hr =>
    cases h
    rw [hr, List.length_cons, List.length_cons] at shorter
    omega
  · cases h

/-- The text without its line continuations. -/
def strip (escape : Char) : Text → Text
  | [] => []
  | c :: t =>
    if c = escape then
      match below : belowBreak? t with
      | some r =>
        have := length_belowBreak? below
        strip escape r
      | none =>
        match t with
        | [] => [c]
        | d :: t => c :: d :: strip escape t
    else c :: strip escape t
termination_by t => t.length
decreasing_by all_goals grind

theorem belowBreak?_eq_none {s : Text} (h : breaksLine s = false) : belowBreak? s = none := by
  unfold breaksLine at h
  unfold belowBreak?
  split at h <;> simp_all

theorem belowBreak?_append {gap ending : Text} (hg : ∀ c ∈ gap, isInlineBlank c = true)
    (he : ending ∈ lineEnds) (r : Text) : belowBreak? (gap ++ (ending ++ r)) = some r := by
  rw [belowBreak?, List.dropWhile_append_of_pos hg]
  simp only [lineEnds, List.mem_cons, List.not_mem_nil, or_false] at he
  rcases he with rfl | rfl <;> rfl

variable {e : Char}

@[simp] theorem strip_nil (e : Char) : strip e [] = [] := by
  rw [strip]

theorem strip_cons {c : Char} (h : c ≠ e) (t : Text) : strip e (c :: t) = c :: strip e t := by
  rw [strip, if_neg h]

theorem strip_of_belowBreak? {s r : Text} (h : belowBreak? s = some r) :
    strip e (e :: s) = strip e r := by
  rw [strip, if_pos rfl]
  split
  · next r' hr =>
    rw [h] at hr
    cases hr
    rfl
  · next hr =>
    rw [h] at hr
    cases hr

theorem strip_of_not_belowBreak? {c : Char} {t : Text} (h : belowBreak? (c :: t) = none) :
    strip e (e :: c :: t) = e :: c :: strip e t := by
  rw [strip, if_pos rfl]
  split
  · next r hr =>
    rw [h] at hr
    cases hr
  · rfl

theorem strip_pair {c : Char} {t : Text} (h : breaksLine (c :: t) = false) :
    strip e (e :: c :: t) = e :: c :: strip e t :=
  strip_of_not_belowBreak? (belowBreak?_eq_none h)

theorem strip_break {k : Continuation} (h : k.IsBreak e) (r : Text) :
    strip e (k.toToken.render ++ r) = strip e r := by
  obtain ⟨gap, ending, blank, isEnd, rfl⟩ := h
  rw [render_broken, List.cons_append, List.append_assoc]
  exact strip_of_belowBreak? (belowBreak?_append blank isEnd r)

end Text

/-! ## Pieces of text -/

/-- Without its line continuations `s` is `v`, in front of any text that does not break the line;
and then it does not break the line itself. Put together, such pieces make up such a piece. -/
def Strips (e : Char) (s v : Text) : Prop :=
  ∀ r, breaksLine r = false →
    breaksLine (s ++ r) = false ∧ Text.strip e (s ++ r) = v ++ Text.strip e r

namespace Strips

variable {e : Char} {s t v w : Text}

theorem strip_eq (h : Strips e s v) : Text.strip e s = v := by
  obtain ⟨-, stripped⟩ := h [] rfl
  simpa using stripped

theorem nil : Strips e [] [] := fun _ hr => ⟨hr, rfl⟩

theorem append (h : Strips e s v) (h' : Strips e t w) : Strips e (s ++ t) (v ++ w) := by
  intro r hr
  obtain ⟨inLine, stripped⟩ := h' r hr
  obtain ⟨inLine', stripped'⟩ := h (t ++ r) inLine
  rw [List.append_assoc, List.append_assoc]
  exact ⟨inLine', by rw [stripped', stripped]⟩

/-- A line continuation is lost. -/
theorem break_ (he : IsEscape e) {k : Continuation} (h : k.IsBreak e) :
    Strips e k.toToken.render [] := by
  exact fun r _ => ⟨h.goesOn he r, Text.strip_break h r⟩

/-- A character stays unless it is the escape character. -/
theorem char {c : Char} (notEscape : c ≠ e) (inLine : isLineEnd c = false) :
    Strips e [c] [c] := by
  intro r hr
  refine ⟨?_, Text.strip_cons notEscape r⟩
  refine breaksLine_append_eq_false (by simpa using inLine) fun broken => ?_
  rw [hr] at broken
  cases broken

/-- An escaped character stays, even if it is white space, and the escape character with it. -/
theorem pair (he : IsEscape e) {c : Char} (inLine : isLineEnd c = false) :
    Strips e [e, c] [e, c] := by
  intro r hr
  refine ⟨breaksLine_of_head he.not_isInlineBlank he.not_isLineEnd, Text.strip_pair ?_⟩
  refine breaksLine_append_eq_false (s := [c]) (by simpa using inLine) fun broken => ?_
  rw [hr] at broken
  cases broken

theorem of_chars (notEscape : ∀ c ∈ s, c ≠ e) (inLine : ∀ c ∈ s, isLineEnd c = false) :
    Strips e s s := by
  induction s with
  | nil => exact nil
  | cons c s ih =>
    obtain ⟨first, others⟩ := List.forall_mem_cons.mp notEscape
    obtain ⟨first', others'⟩ := List.forall_mem_cons.mp inLine
    exact (char first first').append (ih others others')

theorem inBraces (he : IsEscape e) (h : Strips e s v) :
    Strips e (['$', '\x7b'] ++ (s ++ ['\x7d'])) (['$', '\x7b'] ++ (v ++ ['\x7d'])) := by
  have opening : Strips e ['$', '\x7b'] ['$', '\x7b'] :=
    (char he.ne_dollar.symm (by decide)).append (char he.ne_openingBrace.symm (by decide))
  exact opening.append (h.append (char he.ne_closingBrace.symm (by decide)))

/-- If each token strips to its value, so do all of them together. -/
theorem of_tokens {ts : List Token} (h : ∀ t ∈ ts, Strips e t.render t.value) :
    Strips e (renderAll ts) (valueAll ts) := by
  induction ts with
  | nil => exact nil
  | cons t ts ih =>
    obtain ⟨first, others⟩ := List.forall_mem_cons.mp h
    exact first.append (ih others)

end Strips

/-! ## Content -/

section Content

variable {rules : ContentRules}

theorem Spells.strips (he : IsEscape rules.escape) {text : Text} (h : Spells rules text) :
    Strips rules.escape text text := by
  induction h with
  | nil => exact .nil
  | pair inLine _ ih => exact (Strips.pair he inLine).append ih
  | plain notEscape inLine _ _ _ _ ih => exact (Strips.char notEscape inLine).append ih

theorem strips_of_isVariableName {e : Char} (he : IsEscape e) {name : Text}
    (h : isVariableName name = true) : Strips e name name := by
  refine .of_chars (fun c hc => ?_) (inLine_of_isVariableName h)
  rintro rfl
  have isChar := isVariableNameChar_of_mem h c hc
  rw [he.not_isVariableNameChar] at isChar
  cases isChar

theorem Modifier.strips {e : Char} (he : IsEscape e) (m : Modifier) :
    Strips e m.symbol m.symbol := by
  refine .of_chars (fun c hc => ?_) m.inLine
  have none : m.symbol.all (fun c => c != '\\' && c != '`') = true := by
    obtain ⟨use, colon⟩ := m
    cases use <;> cases colon <;> rfl
  have neither := List.all_eq_true.mp none c hc
  rcases he with rfl | rfl <;> simp_all

/-- A part of content strips to its value, and the word of a reference does so within the braces. -/
theorem Part.strips {t : Token} (h : Part rules t) (he : IsEscape rules.escape) :
    Strips rules.escape t.render t.value := by
  induction h with
  | string _ spells => exact spells.strips he
  | continuation isBreak => exact .break_ he isBreak
  | bare isName =>
    have dollar : Strips _ ['$'] ['$'] := .char he.ne_dollar.symm (by decide)
    simpa using dollar.append (strips_of_isVariableName he isName)
  | braced isName => simpa using (strips_of_isVariableName he isName).inBraces he
  | modified m isName _ _ ih =>
    have word := Strips.of_tokens fun t ht => ih t ht he
    have inside := (strips_of_isVariableName he isName).append ((m.strips he).append word)
    simpa [Quote.mark] using inside.inBraces he

/-- The value of content is its text without line continuations. -/
theorem Word.strip_render {ts : List Token} (h : Word rules ts) (he : IsEscape rules.escape) :
    Text.strip rules.escape (renderAll ts) = valueAll ts :=
  (Strips.of_tokens fun t ht => (h.parts t ht).strips he).strip_eq

end Content

end DockerfileSyntax
