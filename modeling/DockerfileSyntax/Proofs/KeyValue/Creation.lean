import DockerfileSyntax.Proofs.Identifiers
import DockerfileSyntax.Proofs.StartPeriod

/-!
# Creating keys and values

The key and the value are put into one text with an equals sign between them, each in double quotes
if it holds white space, and the pair is what that text reads as. It has the given key and value if
and only if the key reads as a whole name in the quotes it needs and the value can be set by itself.
A key that holds a separator, or a value that quotes wrap, is read as something else.
-/

namespace DockerfileSyntax

open Grammar DockerfileSyntax.Parser

namespace KeyValue

/-- The text reads as the name of an identifier in the quotes that it needs. -/
def isKey (rules : NameRules) (key : Text) : Bool :=
  (complete (nameRun rules (excludedIn (quoteFor key))) key).toOption.isSome

/-- The value can be set on a literal without quotes, and it is not empty. -/
def isValue (e : Char) (value : Text) : Bool := Literal.isSettable .value e [] false value

theorem isKey_iff {rules : NameRules} {key : Text} :
    isKey rules key = true ↔
      ∃ ts, run (nameRun rules (excludedIn (quoteFor key))) key = some (ts, []) := by
  rw [isKey]
  simp only [← complete_eq_ok]
  cases complete (nameRun rules (excludedIn (quoteFor key))) key with
  | ok ts => exact iff_of_true rfl ⟨ts, rfl⟩
  | error failure => exact iff_of_false nofun nofun

/-! ## Values -/

theorem run_separator_equals (m : Text) : run separator ('=' :: m) = some (.equals, m) := by
  rw [separator_eq, run_optional_bind_eq_some]
  exact .inl ⟨.equals, m, run_punctuation_eq_some.mpr (.inl ⟨rfl, rfl⟩), rfl⟩

/-- Behind the equals sign stands the given value, if it can be set. Where it cannot be set, what is
read there is another value or nothing. -/
theorem assigned_reads_back_iff {e : Char} (he : IsEscape e) (value : Option Text)
    (unbroken : ∀ v ∈ value, ¬ HoldsBreak e v) :
    (∃ assigned : Option (Separator × Literal),
      run (optional (assigning (literal e .ends []))) (givenText value) = some (assigned, []) ∧
        assigned.map (fun pair => pair.2.value) = value) ↔ ∀ v ∈ value, isValue e v = true := by
  cases value with
  | none => exact iff_of_true ⟨none, run_optional_of_none (run_assigning_nil _), rfl⟩ (by simp)
  | some value =>
    have unbroken := unbroken value rfl
    have only : (∀ v ∈ some value, isValue e v = true) ↔ isValue e value = true := by simp
    rw [only]
    constructor
    · rintro ⟨assigned, h, same⟩
      rcases run_optional_eq_some.mp h with ⟨⟨between, l⟩, rfl, found⟩ | ⟨rfl, -, -⟩
      · obtain ⟨m, hb, hl⟩ := run_assigning_eq_some.mp found
        rw [givenText, Option.elim_some, run_separator_equals] at hb
        obtain ⟨-, rfl⟩ := Prod.mk.inj (Option.some.inj hb)
        obtain rfl : l.value = value := Option.some.inj same
        have text : canonicalText l.value = l.render ++ [] := (lossless_literal ..).append_eq hl
        rw [List.append_nil] at text
        have readable : l.Readable e [] false := .inr (run_literal_sound (by decide) hl)
        exact readable.isSettable he text.symm
      · cases same
    · intro h
      obtain ⟨children, read, text, same⟩ := Literal.exists_of_isSettable he h unbroken
      have wellFormed : Literal.WellFormed e .ends [] ⟨quoteFor value, children⟩ := by
        rcases ((Literal.readContent_eq_ok_iff he).mp read).1 with ⟨noEmpty, -⟩ | wellFormed
        · cases noEmpty
        · exact wellFormed
      have whole := complete_eq_ok.mp
        ((complete_literal_eq_ok he (by decide)).mpr ⟨text, wellFormed⟩)
      refine ⟨some (.equals, ⟨quoteFor value, children⟩), ?_, congrArg some same⟩
      refine run_optional_of_some (run_assigning_eq_some.mpr ⟨_, run_separator_equals _, whole⟩)

/-! ## Keys -/

/-- A key is written as a value is. -/
theorem render_ofValue (key : Text) :
    Token.render (ValueKind.identifier.toToken (ValueKind.identifier.ofValue key)) =
      canonicalText key := by
  show Identifier.render ⟨quoteFor key, [.string key]⟩ = _
  rw [Identifier.render_eq, canonicalText_eq]
  simp

section Keys

variable {rules : NameRules} {key : Text} {value : Option Text}

/-- No line continuation stands in the text that a key and a value without any make up. -/
theorem unbroken_text (he : IsEscape rules.escape) (hk : ¬ HoldsBreak rules.escape key)
    (hv : ∀ v ∈ value, ¬ HoldsBreak rules.escape v) :
    ¬ HoldsBreak rules.escape (canonicalText key ++ givenText value) := by
  intro holds
  rcases holds.of_givenText he with holds | ⟨v, given, holds⟩
  · exact hk (holdsBreak_of_canonicalText he holds)
  · exact hv v given holds

/-- Whether the whole key is a name is seen before the quote behind it, and without quotes before
the equals sign. -/
theorem run_nameRun_key_iff (he : IsEscape rules.escape) (apart : rules.later '=' = false)
    (value : Option Text) {quote : Option Quote} {ts : List Token} :
    run (nameRun rules (excludedIn quote)) (key ++ (Quote.mark quote ++ givenText value)) =
        some (ts, Quote.mark quote ++ givenText value) ↔
      run (nameRun rules (excludedIn quote)) key = some (ts, []) := by
  cases quote with
  | some quote =>
    have stops : rules.StopAt (excludedIn (some quote)) quote.char := by
      refine ⟨(he.ne_quote quote).symm, ?_, ?_, ?_⟩
      · cases quote <;> decide
      · cases quote <;> decide
      · simp [excludedIn]
    exact run_nameRun_before_iff stops
  | none =>
    cases value with
    | none => simp [Quote.mark, givenText]
    | some value =>
      have stops : rules.StopAt (excludedIn none) '=' := by
        refine ⟨?_, by decide, by decide, by simp [apart]⟩
        rcases he with h | h <;> rw [h] <;> decide
      exact run_nameRun_before_iff stops

/-- A key that is read back has the quotes that it needs, and nothing more is read for it. -/
theorem quote_of_created {i : Identifier} {given m : Text}
    (unbroken : ¬ HoldsBreak rules.escape (canonicalText i.value ++ given))
    (h : run (identifier rules) (canonicalText i.value ++ given) = some (i, m)) :
    i.quote = quoteFor i.value ∧ m = given := by
  obtain ⟨t, -, hn⟩ := run_identifier_sound h
  obtain ⟨c, name, begins, allowed⟩ := head_of_run_nameRun hn
  have text : canonicalText i.value ++ given = i.render ++ m := (lossless_identifier _).append_eq h
  rw [Identifier.render_eq, ← run_identifier_value h unbroken, canonicalText_eq] at text
  rw [← run_identifier_value h unbroken] at begins
  generalize i.value = key at text begins ⊢
  subst begins
  have needs : quoteFor (c :: name) = none ∨ quoteFor (c :: name) = some .double := by
    rcases canonicalText_cases (c :: name) with ⟨bare, -⟩ | ⟨quoted, -⟩
    · exact .inl bare
    · exact .inr quoted
  -- whether there are quotes is seen at the first character, which is none of those excluded
  cases hq : i.quote with
  | none =>
    rw [hq] at text allowed
    rcases needs with bare | quoted
    · rw [bare] at text ⊢
      exact ⟨rfl, by simpa [Quote.mark] using text.symm⟩
    · rw [quoted] at text
      have same : Quote.double.char = c := (List.cons.inj text).1
      exact absurd (same ▸ quote_mem_all .double) allowed
  | some quote =>
    rw [hq] at text allowed
    rcases needs with bare | quoted
    · rw [bare] at text
      have same : c = quote.char := (List.cons.inj text).1
      exact absurd (same ▸ List.mem_singleton_self _) allowed
    · rw [quoted] at text ⊢
      have same : Quote.double.char = quote.char := (List.cons.inj text).1
      obtain rfl : quote = .double := by
        cases quote with
        | single => exact absurd same (by decide)
        | double => rfl
      exact ⟨rfl, by simpa [Quote.mark] using text.symm⟩

/-- The key is read back before its value if and only if all of it is one name. -/
theorem key_reads_back_iff (he : IsEscape rules.escape) (apart : rules.later '=' = false)
    (hk : ¬ HoldsBreak rules.escape key) (hv : ∀ v ∈ value, ¬ HoldsBreak rules.escape v) :
    (∃ i, run (identifier rules) (canonicalText key ++ givenText value) =
      some (i, givenText value) ∧ i.value = key) ↔ isKey rules key = true := by
  have unbroken := unbroken_text he hk hv
  have split : canonicalText key ++ givenText value = Quote.mark (quoteFor key) ++
      (key ++ (Quote.mark (quoteFor key) ++ givenText value)) := by
    simp [canonicalText_eq]
  rw [isKey_iff]
  constructor
  · rintro ⟨i, h, rfl⟩
    obtain ⟨own, -⟩ := quote_of_created unbroken h
    obtain ⟨t, text, hn⟩ := run_identifier_sound h
    rw [split, ← own, List.append_cancel_left_eq] at text
    rw [← text, own] at hn
    exact ⟨i.children, (run_nameRun_key_iff he apart value).mp hn⟩
  · rintro ⟨ts, h⟩
    have read : run (identifier rules) (canonicalText key ++ givenText value) =
        some (⟨quoteFor key, ts⟩, givenText value) := by
      refine run_bind_eq_some.mpr ⟨(quoteFor key, ts), givenText value, ?_, rfl⟩
      have inside := (run_nameRun_key_iff he apart value).mpr h
      rw [split]
      cases hq : quoteFor key with
      | some quote =>
        rw [hq] at inside
        exact run_inOptionalQuotes_quoted inside
      | none =>
        rw [hq] at inside h
        refine run_inOptionalQuotes_bare (fun quote first => ?_) inside
        obtain ⟨c, name, begins, allowed⟩ := head_of_run_nameRun h
        have whole : key = Token.renderAll ts ++ [] := (lossless_nameRun rules _).append_eq h
        rw [whole, begins] at first
        obtain rfl : c = quote.char := Option.some.inj first
        exact allowed (quote_mem_all quote)
    refine ⟨⟨quoteFor key, ts⟩, read, ?_⟩
    have whole : key = Token.renderAll ts ++ [] := (lossless_nameRun rules _).append_eq h
    rw [List.append_nil] at whole
    rw [run_identifier_value read unbroken, ← whole]

end Keys

/-! ## Creating -/

theorem value_eq {K : ValueKind} (p : KeyValue K .literal) :
    p.value = p.assigned.map fun pair => Literal.value pair.2 := by
  cases h : p.assigned <;> simp [KeyValue.value, valueToken, h, ValueKind.value]

theorem create_eq_ok {rules : NameRules} {e e' : Char} {isFlag : Bool} {key : Text}
    {value : Option Text} {p : KeyValue .identifier .literal} :
    create (K := .identifier) (V := .literal) e isFlag (identifier rules) (literal e' .ends [])
        key value = .ok p ↔
      key ≠ [] ∧ run (keyValue (K := .identifier) (V := .literal) e isFlag (identifier rules)
        (literal e' .ends [])) ((if isFlag then flagMark else []) ++
          (canonicalText key ++ givenText value)) = some (p, []) := by
  cases key with
  | nil =>
    constructor
    · intro h
      cases h
    · rintro ⟨nonempty, -⟩
      exact absurd rfl nonempty
  | cons c key =>
    have text : create (K := .identifier) (V := .literal) e isFlag (identifier rules)
        (literal e' .ends []) (c :: key) value =
          parse (K := .identifier) (V := .literal) e isFlag (identifier rules)
            (literal e' .ends []) ((if isFlag then flagMark else []) ++
              (canonicalText (c :: key) ++ givenText value)) := by
      rw [← List.append_assoc, ← render_ofValue]
      cases value <;> rfl
    rw [text, parse, readAll_eq_ok, complete_eq_ok]
    simp

/-- Where no line continuation stands in the given key and value, a pair is read back if and only if
its parts are. -/
theorem pair_reads_back_iff {rules : NameRules} (he : IsEscape rules.escape)
    (apart : rules.later '=' = false) (e : Char) (isFlag : Bool) {key : Text} {value : Option Text}
    (hk : ¬ HoldsBreak rules.escape key) (hv : ∀ v ∈ value, ¬ HoldsBreak rules.escape v) :
    (∃ p, create (K := .identifier) (V := .literal) e isFlag (identifier rules)
        (literal rules.escape .ends []) key value = .ok p ∧
      p.key = key ∧ p.value = value ∧ p.isFlag = isFlag) ↔
      isKey rules key = true ∧ ∀ v ∈ value, isValue rules.escape v = true := by
  have unbroken := unbroken_text he hk hv
  rw [← key_reads_back_iff he apart hk hv, ← assigned_reads_back_iff he value hv]
  simp only [create_eq_ok, run_keyValue_eq_some, List.append_cancel_left_eq]
  constructor
  · rintro ⟨p, ⟨-, -, -, t, m, rfl, hi, ha⟩, same, sameValue, -⟩
    obtain rfl : Identifier.value p.keyToken = key := same
    obtain ⟨-, rfl⟩ := quote_of_created unbroken hi
    exact ⟨⟨p.keyToken, hi, rfl⟩, p.assigned, ha, (value_eq p).symm.trans sameValue⟩
  · rintro ⟨⟨i, hi, same⟩, assigned, ha, sameValue⟩
    refine ⟨⟨isFlag, i, assigned, e⟩, ⟨?_, rfl, rfl, _, _, rfl, hi, ha⟩, same, ?_, rfl⟩
    · obtain ⟨t, -, hn⟩ := run_identifier_sound hi
      obtain ⟨c, name, begins, -⟩ := head_of_run_nameRun hn
      rw [← same, run_identifier_value hi unbroken, begins]
      exact List.cons_ne_nil c name
    · rw [value_eq]
      exact sameValue

end KeyValue

namespace StartPeriod

/-- The key that is created is read as it is. -/
theorem run_key_created (s : Text) :
    run (keyword defaultEscape keyName) (keyName ++ s) = some (⟨[.string keyName]⟩, s) := by
  have alone : run (keyword defaultEscape keyName) keyName = some (⟨[.string keyName]⟩, []) := by
    decide +kernel
  have letters : keyName = 's' :: keyName.tail := rfl
  rw [letters] at alone ⊢
  obtain ⟨-, -, -, again⟩ := run_keyword_of_run (apart_of_isEscape isEscape_default) alone
  exact again s

theorem create_eq_ok {value : Text} {p : StartPeriod} :
    create value = .ok p ↔ value ≠ [] ∧
      parse defaultEscape (flagMark ++ (keyName ++ givenText (some value))) = .ok p := by
  cases value with
  | nil =>
    constructor
    · intro h
      cases h
    · rintro ⟨nonempty, -⟩
      exact absurd rfl nonempty
  | cons c value =>
    have read : create (c :: value) =
        parse defaultEscape (flagMark ++ (keyName ++ givenText (some (c :: value)))) := rfl
    rw [read]
    simp

/-- A duration without line continuations is read back if and only if it can be set. -/
theorem duration_reads_back_iff {value : Text} (hv : ¬ HoldsBreak defaultEscape value) :
    (∃ p, create value = .ok p ∧ p.value = some value) ↔
      KeyValue.isValue defaultEscape value = true := by
  have assigned := KeyValue.assigned_reads_back_iff isEscape_default (some value)
    fun v given => by rwa [← Option.some.inj given]
  have only : (∀ v ∈ some value, KeyValue.isValue defaultEscape v = true) ↔
      KeyValue.isValue defaultEscape value = true := by simp
  rw [← only, ← assigned]
  constructor
  · rintro ⟨p, h, same⟩
    obtain ⟨-, h⟩ := create_eq_ok.mp h
    obtain ⟨-, -, t, m, text, hk, ha⟩ := run_keyValue_eq_some.mp (parse_eq_ok.mp h)
    obtain rfl := List.append_cancel_left text
    rw [run_key_created] at hk
    obtain ⟨-, rfl⟩ := Prod.mk.inj (Option.some.inj hk)
    exact ⟨p.assigned, ha, (KeyValue.value_eq p).symm.trans same⟩
  · intro h
    have nonempty : value ≠ [] := by
      rintro rfl
      cases only.mp (assigned.mp h)
    obtain ⟨found, ha, same⟩ := h
    let p : StartPeriod := ⟨true, ⟨[.string keyName]⟩, found, defaultEscape⟩
    have read : run (keyValue defaultEscape true (K := .keyword) (V := .literal)
        (keyword defaultEscape keyName) (literal defaultEscape .ends []))
          (flagMark ++ (keyName ++ givenText (some value))) = some (p, []) :=
      run_keyValue_eq_some.mpr ⟨rfl, rfl, _, _, rfl, run_key_created _, ha⟩
    refine ⟨p, create_eq_ok.mpr ⟨nonempty, parse_eq_ok.mpr read⟩, ?_⟩
    exact (KeyValue.value_eq p).trans same

end StartPeriod

/-- Where no line continuation stands in what is given, a pair of an identifier and a literal has
the given key and value if and only if the key is one whole name in the quotes that it needs and the
value can be set by itself; and a start period has the given duration if and only if that can be
set. Later characters of the key may be any but the equals sign. -/
theorem pairs_read_back_iff (rules : NameRules) (he : IsEscape rules.escape)
    (apart : rules.later '=' = false) (e : Char) (isFlag : Bool) (key : Text) (value : Option Text)
    (duration : Text) (hk : ¬ HoldsBreak rules.escape key)
    (hv : ∀ v ∈ value, ¬ HoldsBreak rules.escape v) (hd : ¬ HoldsBreak defaultEscape duration) :
    ((∃ p, KeyValue.create (K := .identifier) (V := .literal) e isFlag (identifier rules)
        (literal rules.escape .ends []) key value = .ok p ∧
      p.key = key ∧ p.value = value ∧ p.isFlag = isFlag) ↔
      KeyValue.isKey rules key = true ∧
        ∀ v ∈ value, KeyValue.isValue rules.escape v = true) ∧
    ((∃ p, StartPeriod.create duration = .ok p ∧ p.value = some duration) ↔
      KeyValue.isValue defaultEscape duration = true) :=
  ⟨KeyValue.pair_reads_back_iff he apart e isFlag hk hv, StartPeriod.duration_reads_back_iff hd⟩

/-- Names of letters and digits. -/
def wordRules : NameRules := ⟨defaultEscape, isAlphabetic, isAlphanumeric⟩

/-- The key `k` and the value `$v` are read back, and so is the start period `3 s`. -/
theorem pairs_read_back_iff_sample :
    (∃ p, KeyValue.create (K := .identifier) (V := .literal) defaultEscape true
        (identifier wordRules) (literal defaultEscape .ends []) ['k'] (some ['$', 'v']) = .ok p ∧
      p.key = ['k'] ∧ p.value = some ['$', 'v'] ∧ p.isFlag = true) ∧
    ∃ p, StartPeriod.create ['3', ' ', 's'] = .ok p ∧ p.value = some ['3', ' ', 's'] := by
  have values : ∀ v ∈ some ['$', 'v'], v = ['$', 'v'] := fun v h => (Option.some.inj h).symm
  have unbroken : ∀ v ∈ some ['$', 'v'], ¬ HoldsBreak defaultEscape v := by
    intro v h
    rw [values v h]
    exact mt HoldsBreak.newLine_mem (by decide)
  obtain ⟨pair, duration⟩ := pairs_read_back_iff wordRules (.inl rfl) (by decide) defaultEscape true
    ['k'] (some ['$', 'v']) ['3', ' ', 's'] (mt HoldsBreak.newLine_mem (by decide)) unbroken
    (mt HoldsBreak.newLine_mem (by decide))
  refine ⟨pair.mpr ⟨by decide +kernel, ?_⟩, duration.mpr (by decide +kernel)⟩
  intro v h
  rw [values v h]
  decide +kernel

/-- The key `a=b` without a value is read back as the key `a` with the value `b`, and the start
period `'a'` as `a`. -/
theorem created_pair_splits :
    ¬ HoldsBreak defaultEscape ['a', '=', 'b'] ∧
      (∃ p, KeyValue.create (K := .identifier) (V := .literal) defaultEscape false
          (identifier wordRules) (literal defaultEscape .ends []) ['a', '=', 'b'] none = .ok p ∧
        p.key = ['a'] ∧ p.value = some ['b']) ∧
      ∃ p, StartPeriod.create ['\'', 'a', '\''] = .ok p ∧ p.value = some ['a'] := by
  refine ⟨mt HoldsBreak.newLine_mem (by decide), ?_, ?_⟩
  · have parts : (KeyValue.create (K := .identifier) (V := .literal) defaultEscape false
        (identifier wordRules) (literal defaultEscape .ends []) ['a', '=', 'b'] none).toOption.map
          (fun p => (p.key, p.value)) = some (['a'], some ['b']) := by
      decide +kernel
    obtain ⟨p, h, parts⟩ := exists_of_computed parts
    obtain ⟨key, value⟩ := Prod.mk.inj parts
    exact ⟨p, h, key, value⟩
  · have value : (StartPeriod.create ['\'', 'a', '\'']).toOption.map KeyValue.value =
        some (some ['a']) := by
      decide +kernel
    exact exists_of_computed value

end DockerfileSyntax
