import DockerfileSyntax.Proofs.Identifiers

/-!
# Names of build arguments

A name is a first character and later ones, each of which may be escaped or, if it is not, stand
behind line continuations. A name holds no white space but escaped white space, and that is where
the only seam is: before a text that breaks the line, a name that ends with escaped white space is
not read back.

Results:
1. `run_argName_sound`: what was read as a name has the form of a name.
2. `run_argName_of_isName`: a name is read wherever it may end.
3. `value_ne_of_broken`: before a broken line, a name that ends with escaped white space is read as
   a name with another value, if at all.
-/

namespace DockerfileSyntax

open Grammar DockerfileSyntax.Parser

/-! ## Characters of names -/

/-- No code point lies in a range of either list. -/
def CodeRanges.disjoint (r s : CodeRanges) : Bool :=
  r.all fun a => s.all fun b => a.2 < b.1 || b.2 < a.1

theorem CodeRanges.not_contains {r s : CodeRanges} (h : r.disjoint s = true) {c : Char}
    (hc : r.contains c = true) : s.contains c = false := by
  obtain ⟨a, ha, low, high⟩ := CodeRanges.contains_iff.mp hc
  rw [← Bool.not_eq_true, CodeRanges.contains_iff]
  rintro ⟨b, hb, low', high'⟩
  have apart := List.all_eq_true.mp (List.all_eq_true.mp h a ha) b hb
  simp only [Bool.or_eq_true, decide_eq_true_eq] at apart
  omega

/-- The letters and digits of ASCII. -/
def alphanumRanges : CodeRanges := [(0x30, 0x39), (0x41, 0x5a), (0x61, 0x7a)]

theorem contains_of_isAlphanum {c : Char} (h : c.isAlphanum = true) :
    alphanumRanges.contains c = true := by
  delta Char.isAlphanum Char.isAlpha Char.isUpper Char.isLower Char.isDigit at h
  simp only [Bool.or_eq_true, Bool.and_eq_true, decide_eq_true_eq, ge_iff_le,
    UInt32.le_iff_toNat_le] at h
  simp only [alphanumRanges, CodeRanges.contains_iff, List.mem_cons, List.not_mem_nil, or_false,
    exists_eq_or_imp, exists_eq_left]
  have code : c.toNat = c.val.toNat := rfl
  simp at h
  omega

theorem not_isBlank_of_isAlphanum {c : Char} (h : c.isAlphanum = true) : isBlank c = false :=
  CodeRanges.not_contains (by decide) (contains_of_isAlphanum h)

theorem not_isBlank_of_isVariableNameChar {c : Char} (h : isVariableNameChar c = true) :
    isBlank c = false := by
  rcases Bool.or_eq_true_iff.mp h with h | h
  · exact not_isBlank_of_isAlphanum h
  · rw [beq_iff_eq.mp h]
    decide

theorem not_isBlank_of_isAlphanumeric {c : Char} (h : isAlphanumeric c = true) :
    isBlank c = false := by
  rcases Bool.or_eq_true_iff.mp h with h | h
  · unfold isAlphabetic at h
    split at h
    · exact not_isBlank_of_isAlphanum (by simp [Char.isAlphanum, h])
    · exact CodeRanges.not_contains (by decide +kernel) h
  · unfold isNumeric at h
    split at h
    · exact not_isBlank_of_isAlphanum (by simp [Char.isAlphanum, h])
    · exact CodeRanges.not_contains (by decide +kernel) h

theorem not_isBlank_of_isArgNameChar {c : Char} (h : isArgNameChar c = true) :
    isBlank c = false := by
  rcases Bool.or_eq_true_iff.mp h with h | h
  · exact not_isBlank_of_isAlphanumeric h
  · rw [beq_iff_eq.mp h]
    decide

theorem isBlank_of_isLineEnd {c : Char} (h : isLineEnd c = true) : isBlank c = true := by
  rcases Bool.or_eq_true_iff.mp h with h | h <;> rw [beq_iff_eq.mp h] <;> decide

theorem not_isInlineBlank_of_isArgNameChar {c : Char} (h : isArgNameChar c = true) :
    isInlineBlank c = false := by
  rw [isInlineBlank, not_isBlank_of_isArgNameChar h]
  rfl

theorem not_isLineEnd_of_isArgNameChar {c : Char} (h : isArgNameChar c = true) :
    isLineEnd c = false := by
  cases hc : isLineEnd c with
  | false => rfl
  | true =>
    have notBlank := not_isBlank_of_isArgNameChar h
    rw [isBlank_of_isLineEnd hc] at notBlank
    cases notBlank

theorem isArgNameChar_of_isAlphabetic {c : Char} (h : isAlphabetic c = true) :
    isArgNameChar c = true := by
  simp [isArgNameChar, isAlphanumeric, h]

theorem IsEscape.not_isArgNameChar {e : Char} (he : IsEscape e) : isArgNameChar e = false := by
  rcases he with rfl | rfl <;> decide

theorem Quote.not_isArgNameChar (quote : Quote) : isArgNameChar quote.char = false := by
  cases quote <;> decide

/-! ## Later characters -/

/-- The rules for the names of build arguments. -/
def argRules (e : Char) : NameRules := ⟨e, isAlphabetic, isArgNameChar⟩

/-- The tokens of one later character: it stands behind line continuations, or it is escaped. -/
inductive LaterItem (e : Char) : List Token → Prop
  | char {breaks : List Continuation} {c : Char} :
      (∀ k ∈ breaks, k.IsBreak e) → isArgNameChar c = true →
      LaterItem e (breaks.map Continuation.toToken ++ [.string [c]])
  | escaped {c : Char} : isLineEnd c = false → LaterItem e [.string [e, c]]

theorem LaterItem.head {e : Char} (he : IsEscape e) {item : List Token} (h : LaterItem e item) :
    ∃ c m, Token.renderAll item = c :: m ∧ isInlineBlank c = false ∧ isLineEnd c = false := by
  cases h with
  | escaped _ => exact ⟨e, _, rfl, he.not_isInlineBlank, he.not_isLineEnd⟩
  | @char breaks c all isChar =>
    cases breaks with
    | nil =>
      exact ⟨c, [], rfl, not_isInlineBlank_of_isArgNameChar isChar,
        not_isLineEnd_of_isArgNameChar isChar⟩
    | cons k breaks =>
      obtain ⟨gap, ending, -, -, rfl⟩ := all k List.mem_cons_self
      rw [List.map_cons, List.cons_append, Token.renderAll, render_broken]
      exact ⟨e, _, rfl, he.not_isInlineBlank, he.not_isLineEnd⟩

/-- No later character is a quote, so that no quote can stop one. -/
def OnlyQuotes (excluded : List Char) : Prop := ∀ c ∈ excluded, isArgNameChar c = false

theorem onlyQuotes_excludedIn (quote : Option Quote) : OnlyQuotes (excludedIn quote) := by
  intro c hc
  obtain ⟨own, rfl⟩ := exists_of_mem_excludedIn hc
  exact own.not_isArgNameChar

section Runs

variable {e : Char} {excluded : List Char}

theorem run_laterChar_sound {s r : Text} {item : List Token}
    (h : run (laterChar (argRules e) excluded) s = some (item, r)) :
    LaterItem e item ∧ s = Token.renderAll item ++ r := by
  refine ⟨?_, (lossless_laterChar ..).append_eq h⟩
  rcases run_laterChar_eq_some.mp h with plain | ⟨-, c, inLine, -, rfl, -⟩
  · obtain ⟨breaks, c, all, holds, -, -, rfl⟩ := run_charBelow_eq_some.mp plain
    exact .char all (Bool.and_eq_true_iff.mp holds).1
  · exact .escaped inLine

/-- A later character is read, unless it is escaped white space and the line breaks behind it. -/
theorem run_laterChar_of_item (he : IsEscape e) (hx : OnlyQuotes excluded) {item : List Token}
    (h : LaterItem e item) {r : Text}
    (unbroken : ∀ c, item = [.string [e, c]] → isInlineBlank c = true → breaksLine r = false) :
    run (laterChar (argRules e) excluded) (Token.renderAll item ++ r) = some (item, r) := by
  cases h with
  | @char breaks c all isChar =>
    have allowed : (isArgNameChar c && !excluded.contains c) = true := by
      have : c ∉ excluded := fun hc => ne_of_class isChar (hx c hc) rfl
      simp [isChar, this]
    have text : Token.renderAll (breaks.map Continuation.toToken ++ [.string [c]]) ++ r =
        breaksText breaks ++ c :: r := by
      simp [breaksText]
    rw [text]
    exact run_laterChar_of_char all allowed (ne_of_class isChar he.not_isArgNameChar) r
  | @escaped c inLine =>
    have goesOn : breaksLine (c :: r) = false := by
      cases blank : isInlineBlank c with
      | false => exact breaksLine_of_head blank inLine
      | true => rw [breaksLine_cons blank, unbroken c rfl blank]
    have notLater : (isArgNameChar e && !excluded.contains e) = false := by
      rw [he.not_isArgNameChar, Bool.false_and]
    exact run_laterChar_escaped notLater inLine goesOn

/-- Behind the later characters, the line breaks only if the last one is no escaped white space. -/
def EndsWell (e : Char) (items : List (List Token)) (r : Text) : Prop :=
  ∀ c, items.getLast? = some [.string [e, c]] → isInlineBlank c = true → breaksLine r = false

/-- Later characters are read one after the other. -/
theorem steps_of_items (he : IsEscape e) (hx : OnlyQuotes excluded) {items : List (List Token)}
    (all : ∀ item ∈ items, LaterItem e item) {r : Text} (ends : EndsWell e items r) :
    Steps (laterChar (argRules e) excluded) (Token.renderAll items.flatten ++ r) items r := by
  induction items with
  | nil => exact .nil r
  | cons item items ih =>
    obtain ⟨isItem, others⟩ := List.forall_mem_cons.mp all
    have later : EndsWell e items r := by
      intro c hc
      cases items with
      | nil => cases hc
      | cons next items => exact ends c (by rw [List.getLast?_cons_cons]; exact hc)
    have unbroken : ∀ c, item = [.string [e, c]] → isInlineBlank c = true →
        breaksLine (Token.renderAll items.flatten ++ r) = false := by
      intro c hc blank
      cases items with
      | nil => exact ends c (by rw [hc]; rfl) blank
      | cons next items =>
        obtain ⟨d, m, text, notBlank, inLine⟩ := (others next List.mem_cons_self).head he
        rw [List.flatten_cons, Token.renderAll_append, text]
        exact breaksLine_of_head notBlank inLine
    rw [List.flatten_cons, Token.renderAll_append, List.append_assoc]
    refine .cons (run_laterChar_of_item he hx isItem unbroken) ?_ (ih others later)
    obtain ⟨d, m, text, -, -⟩ := isItem.head he
    rw [text]
    simp only [List.length_append, List.length_cons]
    omega

/-- No later character begins with a character that is neither one nor the escape character. -/
theorem run_laterChar_of_head {s : Text}
    (h : ∀ c, s.head? = some c → isArgNameChar c = false ∧ c ≠ e) :
    run (laterChar (argRules e) excluded) s = none := by
  rw [Option.eq_none_iff_forall_ne_some]
  rintro ⟨item, r⟩ hr
  obtain ⟨isItem, rfl⟩ := run_laterChar_sound hr
  cases isItem with
  | escaped _ => exact (h e rfl).2 rfl
  | @char breaks c all isChar =>
    cases breaks with
    | nil =>
      have notChar := (h c rfl).1
      rw [isChar] at notChar
      cases notChar
    | cons k breaks =>
      obtain ⟨gap, ending, -, -, rfl⟩ := all k List.mem_cons_self
      refine (h e ?_).2 rfl
      rw [List.map_cons, List.cons_append, Token.renderAll, render_broken]
      rfl

end Runs

/-! ## Values of names -/

/-- Read from left to right, the value ends with an escaped white space. -/
def endsInEscapedBlank (escape : Char) : Text → Bool
  | [] => false
  | [_] => false
  | c :: d :: t =>
    if c = escape then (if t.isEmpty then isInlineBlank d else endsInEscapedBlank escape t)
    else endsInEscapedBlank escape (d :: t)

theorem endsInEscapedBlank_cons {e c : Char} (h : c ≠ e) (t : Text) :
    endsInEscapedBlank e (c :: t) = endsInEscapedBlank e t := by
  cases t with
  | nil => rfl
  | cons d t => simp [endsInEscapedBlank, h]

theorem valueAll_breaks (breaks : List Continuation) (ts : List Token) :
    Token.valueAll (breaks.map Continuation.toToken ++ ts) = Token.valueAll ts := by
  induction breaks with
  | nil => rfl
  | cons k breaks ih => simpa [Continuation.toToken] using ih

theorem LaterItem.value_ne_nil {e : Char} {item : List Token} (h : LaterItem e item) :
    Token.valueAll item ≠ [] := by
  cases h with
  | char _ _ =>
    rw [valueAll_breaks]
    simp
  | escaped _ => simp

/-- The value of later characters ends with an escaped white space if the last character is one. -/
theorem endsInEscapedBlank_items {e : Char} (he : IsEscape e) {items : List (List Token)}
    (all : ∀ item ∈ items, LaterItem e item) :
    endsInEscapedBlank e (Token.valueAll items.flatten) = true ↔
      ∃ c, items.getLast? = some [.string [e, c]] ∧ isInlineBlank c = true := by
  induction items with
  | nil => simp [endsInEscapedBlank]
  | cons item items ih =>
    obtain ⟨isItem, others⟩ := List.forall_mem_cons.mp all
    rw [List.flatten_cons, Token.valueAll_append]
    cases items with
    | nil =>
      cases isItem with
      | @char breaks c _ isChar =>
        rw [valueAll_breaks]
        simp only [Token.valueAll, Token.value, List.flatten_nil, List.append_nil,
          endsInEscapedBlank, Bool.false_eq_true, List.getLast?_singleton, Option.some.injEq,
          false_iff]
        rintro ⟨d, hd, -⟩
        have := congrArg Token.valueAll hd
        rw [valueAll_breaks] at this
        simp at this
      | escaped _ => simp [endsInEscapedBlank]
    | cons next items =>
      have behind : Token.valueAll (next :: items).flatten ≠ [] := by
        rw [List.flatten_cons, Token.valueAll_append]
        have := (others next List.mem_cons_self).value_ne_nil
        simp [this]
      rw [List.getLast?_cons_cons, ← ih others]
      cases isItem with
      | @char breaks c _ isChar =>
        rw [valueAll_breaks]
        have notEscape := ne_of_class isChar he.not_isArgNameChar
        exact Bool.eq_iff_iff.mp (endsInEscapedBlank_cons notEscape _)
      | @escaped c _ =>
        obtain ⟨d, t, text⟩ := List.exists_cons_of_ne_nil behind
        rw [text]
        simp [endsInEscapedBlank]

/-! ## Names -/

/-- The tokens of a name: a first character and later ones. -/
def IsName (e : Char) (children : List Token) : Prop :=
  ∃ (head : Char) (items : List (List Token)), isAlphabetic head = true ∧
    (∀ item ∈ items, LaterItem e item) ∧ children = mergeStrings (.string [head] :: items.flatten)

section Names

variable {e : Char} {excluded : List Char}

theorem items_of_steps {s r : Text} {items : List (List Token)}
    (h : Steps (laterChar (argRules e) excluded) s items r) :
    ∀ item ∈ items, LaterItem e item := by
  induction h with
  | nil => simp
  | cons first _ _ ih =>
    exact List.forall_mem_cons.mpr ⟨(run_laterChar_sound first).1, ih⟩

theorem run_nameRun_sound {s r : Text} {ts : List Token}
    (h : run (nameRun (argRules e) excluded) s = some (ts, r)) : IsName e ts := by
  obtain ⟨head, items, m, -, isFirst, hi, rfl⟩ := run_nameRun_eq_some.mp h
  exact ⟨head, items, (Bool.and_eq_true_iff.mp isFirst).1,
    items_of_steps (run_many_eq_some.mp hi).1, rfl⟩

/-- A first character and later ones are read, and whatever later characters follow. -/
theorem run_nameRun_of_items (he : IsEscape e) (hx : OnlyQuotes excluded) {head : Char}
    (isFirst : isAlphabetic head = true) {items more : List (List Token)}
    (all : ∀ item ∈ items, LaterItem e item) {r m : Text} (ends : EndsWell e items r)
    (h : run (many (laterChar (argRules e) excluded)) r = some (more, m)) :
    run (nameRun (argRules e) excluded) (head :: (Token.renderAll items.flatten ++ r)) =
      some (mergeStrings (.string [head] :: (items ++ more).flatten), m) := by
  have allowed : (isAlphabetic head && !excluded.contains head) = true := by
    have : head ∉ excluded := fun hc =>
      ne_of_class (isArgNameChar_of_isAlphabetic isFirst) (hx head hc) rfl
    simp [isFirst, this]
  have repeated := run_many_of_steps (steps_of_items he hx all ends) h
  exact run_nameRun_eq_some.mpr ⟨head, items ++ more, _, rfl, allowed, repeated, rfl⟩

/-- A name is read where no later character follows, unless it ends with escaped white space and the
line breaks there. -/
theorem run_nameRun_of_isName (he : IsEscape e) (hx : OnlyQuotes excluded) {ts : List Token}
    (h : IsName e ts) {r : Text}
    (ends : endsInEscapedBlank e (Token.valueAll ts) = true → breaksLine r = false)
    (stop : run (laterChar (argRules e) excluded) r = none) :
    run (nameRun (argRules e) excluded) (Token.renderAll ts ++ r) = some (ts, r) := by
  obtain ⟨head, items, isFirst, all, rfl⟩ := h
  have notEscape := ne_of_class (isArgNameChar_of_isAlphabetic isFirst) he.not_isArgNameChar
  -- the first character is a letter, so that the value ends as its later characters do
  have well : EndsWell e items r := by
    intro c hc blank
    refine ends ?_
    rw [valueAll_mergeStrings]
    exact (endsInEscapedBlank_cons notEscape _).trans
      ((endsInEscapedBlank_items he all).mpr ⟨c, hc, blank⟩)
  have read := run_nameRun_of_items he hx isFirst all well (run_many_of_none stop)
  rw [List.append_nil] at read
  simpa using read

/-- Before a broken line, escaped white space is no later character: what is read there is nothing
or begins with another character. -/
theorem value_ne_of_run_laterChars (he : IsEscape e) {c : Char} (blank : isInlineBlank c = true)
    {r m : Text} (broken : breaksLine r = true) {more : List (List Token)}
    (h : run (many (laterChar (argRules e) excluded)) (e :: c :: r) = some (more, m)) :
    Token.valueAll more.flatten ≠ [e, c] := by
  cases (run_many_eq_some.mp h).1 with
  | nil => simp
  | @cons _ _ _ item more first _ _ =>
    rw [List.flatten_cons, Token.valueAll_append]
    rcases run_laterChar_eq_some.mp first with plain | ⟨-, d, -, unbroken, -, hs⟩
    · obtain ⟨breaks, d, -, holds, -, -, rfl⟩ := run_charBelow_eq_some.mp plain
      rw [valueAll_breaks]
      intro eq
      have isChar := (Bool.and_eq_true_iff.mp holds).1
      exact ne_of_class isChar he.not_isArgNameChar (List.cons.inj eq).1
    · rw [← (List.cons.inj hs).2, breaksLine_cons blank, broken] at unbroken
      cases unbroken

/-- Before a broken line, a name that ends with escaped white space is not read. -/
theorem value_ne_of_run_nameRun (he : IsEscape e) (hx : OnlyQuotes excluded) {ts ts' : List Token}
    (h : IsName e ts) {r m : Text} (ends : endsInEscapedBlank e (Token.valueAll ts) = true)
    (broken : breaksLine r = true)
    (hr : run (nameRun (argRules e) excluded) (Token.renderAll ts ++ r) = some (ts', m)) :
    Token.valueAll ts' ≠ Token.valueAll ts := by
  obtain ⟨head, items, isFirst, all, rfl⟩ := h
  have notEscape := ne_of_class (isArgNameChar_of_isAlphabetic isFirst) he.not_isArgNameChar
  rw [valueAll_mergeStrings] at ends
  obtain ⟨c, last, blank⟩ := (endsInEscapedBlank_items he all).mp
    ((endsInEscapedBlank_cons notEscape _).symm.trans ends)
  obtain ⟨items, rfl⟩ := List.getLast?_eq_some_iff.mp last
  -- all characters but the last one are read as they are
  obtain ⟨more, m', hm⟩ := exists_run_many (laterChar (argRules e) excluded) (e :: c :: r)
  have well : EndsWell e items (e :: c :: r) := fun _ _ _ =>
    breaksLine_of_head he.not_isInlineBlank he.not_isLineEnd
  have read := run_nameRun_of_items he hx isFirst (fun item hi => all item (by simp [hi])) well hm
  have differs := value_ne_of_run_laterChars he blank broken hm
  have same : head :: (Token.renderAll items.flatten ++ (e :: c :: r)) =
      Token.renderAll (mergeStrings (Token.string [head] ::
        (items ++ [[Token.string [e, c]]]).flatten)) ++ r := by
    simp
  rw [same, hr] at read
  obtain ⟨rfl, rfl⟩ := Prod.mk.inj (Option.some.inj read)
  simpa using differs

/-- What was read as a name has the form of one. -/
theorem run_argName_sound {s r : Text} {name : Identifier}
    (h : run (argName e) s = some (name, r)) : IsName e name.children := by
  obtain ⟨⟨quote, children⟩, m, hq, h⟩ := run_bind_eq_some.mp h
  obtain ⟨rfl, rfl⟩ := run_pure_eq_some.mp h
  obtain ⟨t, hc, -⟩ := run_inOptionalQuotes_sound hq
  exact run_nameRun_sound hc

/-- A name begins with a character, and so its value is not empty. -/
theorem IsName.value_ne_nil {children : List Token} (h : IsName e children) :
    Token.valueAll children ≠ [] := by
  obtain ⟨head, items, -, -, rfl⟩ := h
  simp

theorem IsName.head {children : List Token} (h : IsName e children) :
    ∃ c m, isAlphabetic c = true ∧ Token.renderAll children = c :: m := by
  obtain ⟨head, items, isFirst, -, rfl⟩ := h
  exact ⟨head, Token.renderAll items.flatten, isFirst, by simp⟩

/-- A name begins with a letter or with a quote. -/
theorem Identifier.render_head {name : Identifier} (h : IsName e name.children) :
    ∃ c m, name.render = c :: m ∧ (isAlphabetic c = true ∨ ∃ quote : Quote, c = quote.char) := by
  obtain ⟨quote, children⟩ := name
  cases quote with
  | none =>
    obtain ⟨c, m, isFirst, text⟩ := h.head
    exact ⟨c, m, by simp [Identifier.render, Identifier.toToken, Quote.mark, text], .inl isFirst⟩
  | some quote => exact ⟨quote.char, _, rfl, .inr ⟨quote, rfl⟩⟩

theorem not_quote_of_isAlphabetic {c : Char} (h : isAlphabetic c = true) (quote : Quote) :
    c ≠ quote.char :=
  ne_of_class (isArgNameChar_of_isAlphabetic h) quote.not_isArgNameChar

/-- Where a name may end: anywhere behind a closing quote; without quotes where no later character
follows, and not before a broken line if the name ends with escaped white space. -/
def Identifier.EndsBefore (e : Char) (name : Identifier) (r : Text) : Prop :=
  name.quote = none → run (laterChar (argRules e) (excludedIn none)) r = none ∧
    (endsInEscapedBlank e name.value = true → breaksLine r = false)

/-- A name is read wherever it may end. -/
theorem run_argName_of_isName (he : IsEscape e) {name : Identifier} (h : IsName e name.children)
    {r : Text} (hr : name.EndsBefore e r) :
    run (argName e) (name.render ++ r) = some (name, r) := by
  obtain ⟨quote, children⟩ := name
  refine run_bind_eq_some.mpr ⟨(quote, children), r, ?_, rfl⟩
  show run (inOptionalQuotes fun quote => nameRun (argRules e) (excludedIn quote)) _ = _
  cases quote with
  | some quote =>
    have stop :
        run (laterChar (argRules e) (excludedIn (some quote))) (quote.char :: r) = none := by
      refine run_laterChar_of_head fun c hc => ?_
      rw [← Option.some.inj hc]
      exact ⟨quote.not_isArgNameChar, (he.ne_quote quote).symm⟩
    have unbroken : breaksLine (quote.char :: r) = false := by
      cases quote <;> exact breaksLine_of_head (by decide) (by decide)
    have inside := run_nameRun_of_isName he (onlyQuotes_excludedIn _) h (fun _ => unbroken) stop
    have text : Identifier.render ⟨some quote, children⟩ ++ r =
        quote.char :: (Token.renderAll children ++ quote.char :: r) := by
      simp [Identifier.render, Identifier.toToken, Quote.mark]
    rw [text]
    exact run_inOptionalQuotes_quoted inside
  | none =>
    obtain ⟨stop, ends⟩ := hr rfl
    have value : Token.valueAll children = Identifier.value ⟨none, children⟩ := rfl
    have inside := run_nameRun_of_isName he (onlyQuotes_excludedIn _) h
      (fun hv => ends (value ▸ hv)) stop
    have text : Identifier.render ⟨none, children⟩ = Token.renderAll children := by
      simp [Identifier.render, Identifier.toToken, Quote.mark]
    obtain ⟨c, m, isFirst, first⟩ := h.head
    rw [text]
    refine run_inOptionalQuotes_bare (fun quote hc => ?_) inside
    rw [first] at hc
    exact not_quote_of_isAlphabetic isFirst quote (Option.some.inj hc)

/-- Before a broken line, a name without quotes that ends with escaped white space is read as a name
with another value, if at all. -/
theorem value_ne_of_broken (he : IsEscape e) {name name' : Identifier} (h : IsName e name.children)
    (bare : name.quote = none) (ends : endsInEscapedBlank e name.value = true) {r m : Text}
    (broken : breaksLine r = true) (hr : run (argName e) (name.render ++ r) = some (name', m)) :
    name'.value ≠ name.value := by
  obtain ⟨quote, children⟩ := name
  obtain rfl : quote = none := bare
  obtain ⟨⟨quote', children'⟩, m', hq, hr⟩ := run_bind_eq_some.mp hr
  obtain ⟨rfl, rfl⟩ := run_pure_eq_some.mp hr
  obtain ⟨t, hc, ht⟩ := run_inOptionalQuotes_sound hq
  have text : Identifier.render ⟨none, children⟩ = Token.renderAll children := by
    simp [Identifier.render, Identifier.toToken, Quote.mark]
  rw [text] at ht
  cases quote' with
  | some quote =>
    obtain ⟨c, k, isFirst, first⟩ := h.head
    rw [first] at ht
    exact absurd (List.cons.inj ht).1 (not_quote_of_isAlphabetic isFirst quote)
  | none =>
    obtain rfl : Token.renderAll children ++ r = t := ht
    exact value_ne_of_run_nameRun he (onlyQuotes_excludedIn none) h ends broken hc

end Names

end DockerfileSyntax
