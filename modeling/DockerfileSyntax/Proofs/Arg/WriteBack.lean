import DockerfileSyntax.Proofs.Arg.Resolution
import DockerfileSyntax.Proofs.Content.Joining

/-!
# Writing back the value that was read

The value of a declaration is its content without line continuations, and an edit reads a value from
the beginning. So the value that was read can be written back, and then the line continuations are
gone; all else is as it was, unless a reference has been joined where a line continuation stood.
Then the value is refused, or it has other references. It is the same text in any case.
-/

namespace DockerfileSyntax

open Grammar DockerfileSyntax.Parser Token

/-! ## Literals -/

namespace Literal

variable {field : EditField} {e : Char} {excluded : List Char} {allowEmpty : Bool} {l : Literal}

/-- The literal without its line continuations, in the quotes that its value needs. -/
def withoutBreaks (l : Literal) : Literal := ⟨l.quoteWith l.value, unbrokenAll l.children⟩

theorem quoteWith_eq_single_iff (l : Literal) (value : Text) :
    l.quoteWith value = some .single ↔ l.quote = some .single := by
  obtain ⟨quote, children⟩ := l
  rcases canonicalText_cases value with ⟨needs, -⟩ | ⟨needs, -⟩
  · rw [quoteWith, needs, Option.or_none]
  · rw [quoteWith, needs]
    cases quote <;> simp

/-- No line ends in the value of what was read. -/
theorem Readable.inLine (he : IsEscape e) (h : l.Readable e excluded allowEmpty) :
    ∀ c ∈ l.value, isLineEnd c = false := by
  obtain ⟨rules, rfl, parts⟩ := h.parts
  exact (value_eq_of_parts fun t ht => (parts t ht).value_eq he).1

/-- In double quotes, less ends the content than without quotes. -/
theorem widens_double (e : Char) (excluded : List Char) :
    (ContentRules.quoted e .double).Widens (.bare e .ends excluded) := by
  refine ⟨rfl, nofun, fun c hc => ?_⟩
  rw [List.mem_singleton.mp hc]
  exact List.mem_append_right excluded (quote_mem_all .double)

/-- A literal that was read is well formed without its line continuations if and only if no
reference is joined. -/
theorem WellFormed.withoutBreaks_iff (he : IsEscape e) (h : l.WellFormed e .ends excluded) :
    l.withoutBreaks.WellFormed e .ends excluded ↔ joinsReference e l.children = false := by
  obtain ⟨quote, children⟩ := l
  cases quote with
  | some quote => exact Word.unbrokenAll_iff (.refl _) he h
  | none =>
    obtain ⟨isWord, nonempty⟩ := h
    have he' : IsEscape (ContentRules.bare e .ends excluded).escape := he
    rcases canonicalText_cases (Literal.value ⟨none, children⟩) with ⟨needs, -⟩ | ⟨needs, -⟩
    · have same : withoutBreaks ⟨none, children⟩ = ⟨none, unbrokenAll children⟩ := by
        rw [withoutBreaks, quoteWith, needs]
        rfl
      rw [same]
      refine Iff.trans ?_ (isWord.unbrokenAll_iff (.refl _) he')
      exact and_iff_left (isWord.unbrokenAll_ne_nil nonempty)
    · have same : withoutBreaks ⟨none, children⟩ = ⟨some .double, unbrokenAll children⟩ := by
        rw [withoutBreaks, quoteWith, needs]
        rfl
      rw [same]
      exact isWord.unbrokenAll_iff (widens_double e excluded) he'

theorem Readable.withoutBreaks_iff (he : IsEscape e) (h : l.Readable e excluded allowEmpty) :
    l.withoutBreaks.Readable e excluded allowEmpty ↔ joinsReference e l.children = false := by
  rcases h with ⟨allowed, rfl⟩ | wellFormed
  · exact iff_of_true (.inl ⟨allowed, rfl⟩) rfl
  · rw [← wellFormed.withoutBreaks_iff he]
    refine or_iff_right ?_
    rintro ⟨-, isEmpty⟩
    obtain ⟨quote, children⟩ := l
    obtain ⟨noQuote, nothing⟩ := Literal.mk.inj isEmpty
    obtain rfl : quote = none := (Option.or_eq_none_iff.mp noQuote).1
    exact wellFormed.1.unbrokenAll_ne_nil wellFormed.2 nothing

/-- The value of what was read is read as the old content without its line continuations if and
only if no reference is joined. -/
theorem Readable.readContent_value_iff (he : IsEscape e) (h : l.Readable e excluded allowEmpty) :
    readContent field e excluded allowEmpty (l.quoteWith l.value) l.value =
      .ok (unbrokenAll l.children) ↔ joinsReference e l.children = false := by
  obtain ⟨rules, -, parts⟩ := h.parts
  have text : renderAll (unbrokenAll l.children) = l.value := Part.renderAll_unbrokenAll parts
  rw [readContent_eq_ok_iff he, and_iff_left text]
  exact h.withoutBreaks_iff he

/-- Whatever the value of what was read is read as, it has the same value. -/
theorem Readable.value_of_readContent (he : IsEscape e) (h : l.Readable e excluded allowEmpty)
    {quote : Option Quote} {children : List Token}
    (read : readContent field e excluded allowEmpty quote l.value = .ok children) :
    Literal.value ⟨quote, children⟩ = l.value := by
  obtain ⟨readable, text⟩ := (readContent_eq_ok_iff he).mp read
  have unbroken : ¬ HoldsBreak e (renderAll children) := by
    rw [text]
    intro holds
    exact absurd (h.inLine he _ holds.newLine_mem) (by decide)
  rw [readable.value_eq he unbroken, text]

/-- What a literal resolves to. -/
theorem map_value_resolve {rules : ContentRules} (parts : ∀ t ∈ l.children, Part rules t)
    (env : Environment) : (l.resolve env).map value =
      if l.quote = some .single then .ok l.value else evaluateAll env l.children := by
  split
  · next single => rw [resolve_single env single, Except.map]
  · next expands =>
    cases evaluated : evaluateAll env l.children with
    | ok text =>
      obtain ⟨l', resolved, -, rfl, -⟩ := resolve_of_evaluateAll parts expands evaluated
      rw [resolved, Except.map]
    | error unset => rw [resolve_of_error parts expands evaluated, Except.map]

theorem Readable.value_withoutBreaks (he : IsEscape e) (h : l.Readable e excluded allowEmpty)
    (apart : joinsReference e l.children = false) : l.withoutBreaks.value = l.value := by
  have read : readContent .argValue e excluded allowEmpty (l.quoteWith l.value) l.value =
      .ok (unbrokenAll l.children) := (h.readContent_value_iff he).mpr apart
  exact h.value_of_readContent he read

theorem Readable.map_value_resolve_withoutBreaks (he : IsEscape e)
    (h : l.Readable e excluded allowEmpty) (apart : joinsReference e l.children = false)
    (env : Environment) : (l.withoutBreaks.resolve env).map value = (l.resolve env).map value := by
  obtain ⟨rules, -, parts⟩ := h.parts
  obtain ⟨rules', -, parts'⟩ := ((h.withoutBreaks_iff he).mpr apart).parts
  rw [map_value_resolve parts, map_value_resolve parts', h.value_withoutBreaks he apart]
  simp only [withoutBreaks, quoteWith_eq_single_iff, Part.evaluateAll_unbrokenAll parts]

end Literal

/-! ## Declarations -/

namespace Arg

/-- Without its line continuations, the value would refer to other variables. -/
def joinsReference (a : Arg) : Bool :=
  a.value.any fun l => Token.joinsReference a.escape l.children

/-- The declaration with a value that has no line continuations. -/
def withoutBreaks (a : Arg) : Arg := { a with value := a.value.map Literal.withoutBreaks }

section

variable {e : Char} {a : Arg} {l : Literal}

/-- What a value resolves to is what the declaration with this value resolves to. -/
theorem resolution_eq (name : IsName e a.name.children) (value : a.value = some l)
    (env : Environment) : a.resolution env =
      match (l.resolve env).map Literal.value with
      | .ok text => (some text, none)
      | .error unset => (some l.value, some (.unset unset)) := by
  rw [resolution, apply_resolve (name.resolve_eq env), value]
  dsimp only
  cases l.resolve env with
  | ok l' => rfl
  | error unset =>
    rw [Except.map]
    dsimp only
    rw [argValue, value, Option.map_some]

/-- In single quotes, a value stays as it is in every environment. -/
theorem resolution_of_single (name : IsName e a.name.children) (value : a.value = some l)
    (single : l.quote = some .single) (env : Environment) :
    a.resolution env = (some l.value, none) := by
  rw [resolution_eq name value, Literal.resolve_single env single]
  rfl

/-- Either the value is refused and nothing is changed, or what it is read as is stored. -/
theorem setArgValue_value_cases (escape : a.escape = e) (value : a.value = some l) :
    (∃ error, Literal.readContent .argValue e [] true (l.quoteWith l.value) l.value = .error error ∧
      Edit.apply (setArgValue (some l.value)) a = ⟨a, some error⟩) ∨
    ∃ children,
      Literal.readContent .argValue e [] true (l.quoteWith l.value) l.value = .ok children ∧
      Edit.apply (setArgValue (some l.value)) a =
        ⟨{ a with value := some ⟨l.quoteWith l.value, children⟩ }, none⟩ := by
  rw [apply_setArgValue, escape, value, Option.getD_some]
  cases Literal.readContent .argValue e [] true (l.quoteWith l.value) l.value with
  | error error => exact .inl ⟨error, rfl, rfl⟩
  | ok children => exact .inr ⟨children, rfl, rfl⟩

/-- What is stored is the old value without its line continuations if and only if no reference is
joined. -/
theorem setArgValue_value_iff (he : IsEscape e) (escape : a.escape = e) (value : a.value = some l)
    (readable : l.Readable e [] true) :
    Edit.apply (setArgValue (some l.value)) a = ⟨a.withoutBreaks, none⟩ ↔
      a.joinsReference = false := by
  have joins : a.joinsReference = Token.joinsReference e l.children := by
    rw [joinsReference, value, Option.any_some, escape]
  have stored : a.withoutBreaks =
      { a with value := some ⟨l.quoteWith l.value, unbrokenAll l.children⟩ } := by
    rw [withoutBreaks, value]
    rfl
  rw [joins, ← readable.readContent_value_iff he, stored]
  rcases setArgValue_value_cases escape value with
    ⟨error, read, applied⟩ | ⟨children, read, applied⟩
  · rw [read, applied]
    exact iff_of_false (fun same => nomatch congrArg Progress.error same) nofun
  · rw [read, applied]
    simp

/-- The value is the same text once it has been written back, accepted or not. -/
theorem argValue_of_setArgValue_value (he : IsEscape e) (escape : a.escape = e)
    (value : a.value = some l) (readable : l.Readable e [] true) :
    (Edit.apply (setArgValue (some l.value)) a).result.argValue = some l.value := by
  rcases setArgValue_value_cases escape value with
    ⟨error, -, applied⟩ | ⟨children, read, applied⟩
  · rw [applied, argValue, value, Option.map_some]
  · rw [applied]
    exact congrArg some (readable.value_of_readContent he read)

theorem Sound.resolution_withoutBreaks (he : IsEscape e) (sound : a.Sound e)
    (value : a.value = some l) (readable : l.Readable e [] true) (apart : a.joinsReference = false)
    (env : Environment) : a.withoutBreaks.resolution env = a.resolution env := by
  have name : IsName e a.withoutBreaks.name.children := sound.name
  have value' : a.withoutBreaks.value = some l.withoutBreaks := by
    rw [withoutBreaks, value, Option.map_some]
  have joins : Token.joinsReference e l.children = false := by
    rwa [joinsReference, value, Option.any_some, sound.escape] at apart
  rw [resolution_eq name value', resolution_eq sound.name value,
    readable.map_value_resolve_withoutBreaks he joins, readable.value_withoutBreaks he joins]

/-- In single quotes, a value that is written back resolves as it did, whatever it is read as. -/
theorem Sound.resolution_of_single_written_back (he : IsEscape e) (sound : a.Sound e)
    (value : a.value = some l) (readable : l.Readable e [] true) (single : l.quote = some .single)
    (env : Environment) :
    (Edit.apply (setArgValue (some l.value)) a).result.resolution env = a.resolution env := by
  rcases setArgValue_value_cases sound.escape value with
    ⟨error, -, applied⟩ | ⟨children, read, applied⟩
  · rw [applied]
  · have single' : l.quoteWith l.value = some .single :=
      (l.quoteWith_eq_single_iff l.value).mpr single
    have same : Literal.value ⟨l.quoteWith l.value, children⟩ = l.value :=
      readable.value_of_readContent he read
    have stored := resolution_of_single
      (a := { a with value := some ⟨l.quoteWith l.value, children⟩ }) sound.name rfl single' env
    rw [applied, stored, same, resolution_of_single sound.name value single]

end

/-- Writing back the value that was read keeps the value, accepted or not. It is accepted as the old
content without its line continuations if and only if no reference is joined, and then the
declaration resolves in every environment as it did before: to the same value, or with the same
error. A declaration with its value in single quotes does so in any case. -/
theorem value_written_back {e : Char} (he : IsEscape e) {text v : Text} {a : Arg}
    (h : parse e text = .ok a) (read : a.argValue = some v) :
    (Edit.apply (setArgValue (some v)) a).result.argValue = some v ∧
    (Edit.apply (setArgValue (some v)) a = ⟨a.withoutBreaks, none⟩ ↔ a.joinsReference = false) ∧
    (a.joinsReference = false ∨ a.value.bind Literal.quote = some .single → ∀ env,
      (Edit.apply (setArgValue (some v)) a).result.resolution env = a.resolution env) := by
  obtain ⟨l, value, rfl⟩ := Option.map_eq_some_iff.mp read
  obtain ⟨sound, keeps⟩ := sound_of_parse he h
  have readable := keeps.readable value
  have stored := setArgValue_value_iff he sound.escape value readable
  refine ⟨argValue_of_setArgValue_value he sound.escape value readable, stored, ?_⟩
  rintro (apart | single) env
  · rw [stored.mpr apart]
    exact sound.resolution_withoutBreaks he value readable apart env
  · rw [value, Option.bind_some] at single
    exact sound.resolution_of_single_written_back he value readable single env

/-- `ARG x=a$B` with a line continuation behind the `a` has the value `a$B`. With this value written
back, it resolves as it did. -/
theorem value_written_back_sample :
    ∃ a, parse '\\' ['A', 'R', 'G', ' ', 'x', '=', 'a', '\\', '\n', '$', 'B'] = .ok a ∧
      a.argValue = some ['a', '$', 'B'] ∧
      Edit.apply (setArgValue (some ['a', '$', 'B'])) a = ⟨a.withoutBreaks, none⟩ ∧
      ∀ env, (Edit.apply (setArgValue (some ['a', '$', 'B'])) a).result.resolution env =
        a.resolution env := by
  have facts : (parse '\\' ['A', 'R', 'G', ' ', 'x', '=', 'a', '\\', '\n', '$', 'B']).toOption.map
      (fun a => (a.argValue, a.joinsReference)) = some (some ['a', '$', 'B'], false) := by
    decide +kernel
  obtain ⟨a, h, facts⟩ := exists_of_computed facts
  obtain ⟨read, apart⟩ := Prod.mk.inj facts
  obtain ⟨-, stored, same⟩ := value_written_back (.inl rfl) h read
  exact ⟨a, h, read, stored.mpr apart, same (.inl apart)⟩

/-- Where a line continuation stands behind `$A`, the `B` behind that is no part of the name. The
value is `$AB` all the same, and that refers to another variable once it is written back. Where a
line continuation stands between a dollar sign and an opening brace, the value is refused. -/
theorem written_back_value_joins :
    (∃ a, parse '\\' ['A', 'R', 'G', ' ', 'x', '=', '$', 'A', '\\', '\n', 'B'] = .ok a ∧
      a.argValue = some ['$', 'A', 'B'] ∧
      ¬ ∀ env, (Edit.apply (setArgValue (some ['$', 'A', 'B'])) a).result.resolution env =
        a.resolution env) ∧
    ∃ a, parse '\\' ['A', 'R', 'G', ' ', 'x', '=', '$', '\\', '\n', '\x7b'] = .ok a ∧
      a.argValue = some ['$', '\x7b'] ∧
      (Edit.apply (setArgValue (some ['$', '\x7b'])) a).error ≠ none := by
  constructor
  · let env : Environment := fun name => if name = ['A'] then some ['1'] else none
    have facts : (parse '\\' ['A', 'R', 'G', ' ', 'x', '=', '$', 'A', '\\', '\n', 'B']).toOption.map
        (fun a => (a.argValue,
          ((Edit.apply (setArgValue (some ['$', 'A', 'B'])) a).result.resolution env).1,
          (a.resolution env).1)) =
        some (some ['$', 'A', 'B'], some [], some ['1', 'B']) := by
      decide +kernel
    obtain ⟨a, h, facts⟩ := exists_of_computed facts
    obtain ⟨read, facts⟩ := Prod.mk.inj facts
    obtain ⟨after, before⟩ := Prod.mk.inj facts
    refine ⟨a, h, read, fun same => ?_⟩
    rw [same env, before] at after
    cases after
  · have facts : (parse '\\' ['A', 'R', 'G', ' ', 'x', '=', '$', '\\', '\n', '\x7b']).toOption.map
        (fun a => (a.argValue,
          (Edit.apply (setArgValue (some ['$', '\x7b'])) a).error.isSome)) =
        some (some ['$', '\x7b'], true) := by
      decide +kernel
    obtain ⟨a, h, facts⟩ := exists_of_computed facts
    obtain ⟨read, refused⟩ := Prod.mk.inj facts
    exact ⟨a, h, read, Option.isSome_iff_ne_none.mp refused⟩

end Arg

end DockerfileSyntax
