import DockerfileSyntax.Proofs.Arg.Renames
import DockerfileSyntax.Proofs.Arg.Values
import DockerfileSyntax.Proofs.Identifiers

/-!
# Creating a declaration from a name and a value

The name and the value are put into one text, the value in double quotes if it holds white space,
and the declaration is what that text reads as. It has the given name and value if and only if the
name reads as one without quotes and the value can be set by itself. A name that holds an equals
sign, or that quotes wrap, is read as something else.
-/

namespace DockerfileSyntax

open Grammar DockerfileSyntax.Parser

namespace Arg

/-- The text reads as a name without quotes. -/
def isBareName (name : Text) : Bool :=
  (complete (Grammar.argName defaultEscape) name).toOption.any (·.quote.isNone)

/-- The value can be set on a literal without quotes. -/
def isValue (value : Text) : Bool := Literal.isSettable .argValue defaultEscape [] true value

theorem isBareName_iff {name : Text} :
    isBareName name = true ↔ ∃ found, found.quote = none ∧
      run (Grammar.argName defaultEscape) name = some (found, []) := by
  rw [isBareName]
  constructor
  · intro h
    cases hc : complete (Grammar.argName defaultEscape) name with
    | error failure =>
      rw [hc] at h
      cases h
    | ok found =>
      rw [hc] at h
      exact ⟨found, Option.isNone_iff_eq_none.mp h, complete_eq_ok.mp hc⟩
  · rintro ⟨found, bare, h⟩
    rw [complete_eq_ok.mpr h]
    exact Option.isNone_iff_eq_none.mpr bare

/-! ## The text of a declaration -/

theorem create_eq_ok {name : Text} {value : Option Text} {a : Arg} :
    create name value = .ok a ↔ name ≠ [] ∧
      parse defaultEscape (['A', 'R', 'G', ' '] ++ (name ++ givenText value)) = .ok a := by
  cases name with
  | nil =>
    constructor
    · intro h
      cases h
    · rintro ⟨nonempty, -⟩
      exact absurd rfl nonempty
  | cons c name =>
    have read : create (c :: name) value =
        parse defaultEscape (['A', 'R', 'G', ' '] ++ ((c :: name) ++ givenText value)) := by
      cases value <;> rfl
    rw [read]
    simp

/-- No line continuation stands in the text that a name and a value without any make up. -/
theorem unbroken_text {name : Text} {value : Option Text} (hn : ¬ HoldsBreak defaultEscape name)
    (hv : ∀ v ∈ value, ¬ HoldsBreak defaultEscape v) :
    ¬ HoldsBreak defaultEscape (name ++ givenText value) := by
  intro holds
  rcases holds.of_givenText isEscape_default with holds | ⟨v, given, holds⟩
  · exact hn holds
  · exact hv v given holds

/-- Where no line continuation stands, there is only white space between the keyword and the
name. -/
theorem run_nameGap_of_unbroken {e : Char} {s r : Text} {gap : List Trivia}
    (h : run (nameGap e) s = some (gap, r)) (unbroken : ¬ HoldsBreak e s) :
    ∃ blanks, (∀ c ∈ blanks, isInlineBlank c = true) ∧ s = blanks ++ r := by
  obtain ⟨u, m, hm, h⟩ := run_bind_eq_some.mp h
  obtain rfl : s = m := (lossless_keywordEnd e).append_eq hm
  obtain ⟨found, m, hf, rest⟩ := run_bind_eq_some.mp h
  obtain ⟨before, blank, -, rfl, -⟩ := run_blankRun_sound hf
  rcases run_optional_bind_eq_some.mp rest with ⟨k, m', hk, -⟩ | ⟨-, rest⟩
  · obtain ⟨isBreak, rfl, -⟩ := isBreak_of_run hk
    exact absurd ⟨k, isBreak, before, m', by simp⟩ unbroken
  · obtain ⟨more, m', hs, rest⟩ := run_bind_eq_some.mp rest
    obtain ⟨-, rfl⟩ := run_pure_eq_some.mp rest
    obtain ⟨behind, blank', -, rfl, -⟩ := run_blankRun_sound hs
    refine ⟨before ++ behind, fun c hc => ?_, by rw [List.append_assoc]⟩
    rcases List.mem_append.mp hc with hc | hc
    · exact blank c hc
    · exact blank' c hc

/-- The keyword that is created is read as it is. -/
theorem run_keyword_created (s : Text) :
    run (keyword defaultEscape ['A', 'R', 'G']) (['A', 'R', 'G'] ++ s) =
      some (⟨[.string ['A', 'R', 'G']]⟩, s) := by
  have alone : run (keyword defaultEscape ['A', 'R', 'G']) ['A', 'R', 'G'] =
      some (⟨[.string ['A', 'R', 'G']]⟩, []) := by decide +kernel
  obtain ⟨-, -, -, again⟩ := run_keyword_of_run (apart_of_isEscape isEscape_default) alone
  exact again s

/-- What is read as the beginning of a created declaration is white space behind the keyword. -/
theorem beginning_of_created {s r : Text} {heading : Heading}
    (h : run (beginning defaultEscape) (['A', 'R', 'G', ' '] ++ s) = some (heading, r))
    (unbroken : ¬ HoldsBreak defaultEscape s) :
    ∃ blanks, (∀ c ∈ blanks, isInlineBlank c = true) ∧ ' ' :: s = blanks ++ r := by
  obtain ⟨lead, m, hl, h⟩ := run_bind_eq_some.mp h
  obtain ⟨before, blank, -, text, -⟩ := run_blankRun_sound hl
  obtain rfl : before = [] := by
    cases before with
    | nil => rfl
    | cons c before =>
      have isBlank := blank c List.mem_cons_self
      rw [← (List.cons.inj text).1] at isBlank
      cases isBlank
  obtain ⟨found, m', hk, h⟩ := run_bind_eq_some.mp h
  obtain ⟨gap, m₂, hg, h⟩ := run_bind_eq_some.mp h
  obtain ⟨-, rfl⟩ := run_pure_eq_some.mp h
  obtain rfl : ['A', 'R', 'G', ' '] ++ s = m := text
  have read := run_keyword_created (' ' :: s)
  rw [show ['A', 'R', 'G', ' '] ++ s = ['A', 'R', 'G'] ++ ' ' :: s from rfl, read] at hk
  obtain ⟨-, rfl⟩ := Prod.mk.inj (Option.some.inj hk)
  exact run_nameGap_of_unbroken hg fun holds => unbroken (holds.of_cons (by decide))

/-! ## What is read for a name and a value -/

/-- A name begins with a letter, so that neither white space nor a quote stands before it. -/
theorem alone_of_letter {c : Char} {name m m' blanks : Text} {quote : Option Quote}
    (isFirst : isAlphabetic c = true) (begins : name.head? = some c)
    (blank : ∀ b ∈ blanks, isInlineBlank b = true)
    (text : name ++ m = blanks ++ (Quote.mark quote ++ name ++ Quote.mark quote ++ m')) :
    quote = none ∧ m' = m := by
  obtain ⟨letters, rfl⟩ := List.head?_eq_some_iff.mp begins
  cases blanks with
  | cons b blanks =>
    have isBlank := blank b List.mem_cons_self
    rw [← (List.cons.inj text).1,
      not_isInlineBlank_of_isArgNameChar (isArgNameChar_of_isAlphabetic isFirst)] at isBlank
    cases isBlank
  | nil =>
    cases quote with
    | some quote => exact absurd (List.cons.inj text).1 (not_quote_of_isAlphabetic isFirst quote)
    | none => exact ⟨rfl, by simpa [Quote.mark] using text.symm⟩

/-- A declaration that is created with the given name has it without quotes, and all that is read
behind it is the value. -/
theorem name_of_created {name : Text} {value : Option Text} {a : Arg}
    (hn : ¬ HoldsBreak defaultEscape name) (hv : ∀ v ∈ value, ¬ HoldsBreak defaultEscape v)
    (h : parse defaultEscape (['A', 'R', 'G', ' '] ++ (name ++ givenText value)) = .ok a)
    (argName : a.argName = name) :
    a.name.quote = none ∧ a.name.render = name ∧ a.tail = givenText value := by
  have he := isEscape_default
  have unbroken := unbroken_text hn hv
  obtain ⟨r, r', r₂, hh, hname, hvalue, htrail, -⟩ := run_arg_eq_some.mp (parse_eq_ok.mp h)
  have isName := run_argName_sound hname
  obtain rfl : r = a.name.render ++ r' := (lossless_identifier _).append_eq hname
  obtain rfl : r₂ = triviaText a.trail := by
    have whole : r₂ = triviaText a.trail ++ [] := (lossless_ending _).append_eq htrail
    rwa [List.append_nil] at whole
  obtain rfl : r' = a.tail := (lossless_assignment _).append_eq hvalue
  obtain ⟨blanks, blank, text⟩ := beginning_of_created hh unbroken
  -- the name begins with no white space, and so the white space behind the keyword is before it
  obtain ⟨c, m, first, starts⟩ := startsName_of_isName he isName
  obtain ⟨b, blanks, rfl⟩ : ∃ b blanks', blanks = b :: blanks' := by
    refine List.exists_cons_of_ne_nil ?_
    rintro rfl
    rw [first] at text
    have notBlank := starts.notBlank
    rw [← (List.cons.inj text).1] at notBlank
    cases notBlank
  have text : name ++ givenText value = blanks ++ (a.name.render ++ a.tail) :=
    (List.cons.inj text).2
  have content : name = Token.renderAll a.name.children := by
    rw [← argName]
    refine run_identifier_value hname fun holds => unbroken ?_
    rw [text]
    exact holds.mono (List.suffix_append ..).isInfix
  obtain ⟨letter, letters, isFirst, begins⟩ := isName.head
  rw [Identifier.render_eq, ← content] at text
  obtain ⟨bare, rest⟩ := alone_of_letter isFirst (by rw [content, begins]; rfl)
    (fun c hc => blank c (List.mem_cons_of_mem b hc)) text
  refine ⟨bare, ?_, rest⟩
  rw [Identifier.render_eq, bare, ← content]
  simp [Quote.mark]

/-! ## Creating -/

/-- The value that a declaration has which was created with it can be set. -/
theorem isValue_of_created {value : Text} {a : Arg} (hv : ¬ HoldsBreak defaultEscape value)
    (keeps : a.KeepsValue defaultEscape) (text : a.tail = givenText (some value))
    (argValue : a.argValue = some value) : isValue value = true := by
  obtain ⟨l, stored, rfl⟩ : ∃ l, a.value = some l ∧ l.value = value := by
    rw [Arg.argValue, Option.map_eq_some_iff] at argValue
    exact argValue
  rw [tail, stored] at text
  exact (keeps.readable stored).isSettable_of_append isEscape_default (List.cons.inj text).2 hv

/-- The heading of a created declaration. -/
def createdHeading : Heading := ⟨[], ⟨[.string ['A', 'R', 'G']]⟩, [.whitespace [' ']]⟩

/-- The declaration of a name and perhaps a value, without white space but the one behind the
keyword. -/
def created (name : Identifier) (value : Option Literal) : Arg :=
  ⟨createdHeading, name, value, [], defaultEscape⟩

theorem sound_created {found : Identifier} {s : Text}
    (read : run (Grammar.argName defaultEscape) s = some (found, [])) (value : Option Literal) :
    (created found value).Sound defaultEscape := by
  have noTrail : run (ending defaultEscape) [] = some ([], []) := by decide +kernel
  refine ⟨rfl, ?_, run_argName_sound read, noTrail⟩
  intro c r starts
  have once : run (beginning defaultEscape) ['A', 'R', 'G', ' ', 'x'] =
      some (createdHeading, ['x']) := by decide +kernel
  exact run_beginning_of_startsName isEscape_default once
    ⟨by decide, by decide, by decide, by decide⟩ starts

/-- What is created from a name and the text of a value is the declaration of the two, if they are
read where they stand. -/
theorem create_of_sound {name : Text} {value : Option Text} {found : Identifier}
    (stored : Option Literal) (hn : ¬ HoldsBreak defaultEscape name)
    (bare : found.quote = none) (read : run (Grammar.argName defaultEscape) name = some (found, []))
    (text : assignedText stored = givenText value) (values : stored.map Literal.value = value)
    (keeps : (created found stored).KeepsValue defaultEscape)
    (ends : found.EndsBefore defaultEscape (created found stored).tail) :
    ∃ a, create name value = .ok a ∧ a.argName = name ∧ a.argValue = value ∧ a.comments = [] := by
  have again := (sound_created read stored).parse_render isEscape_default keeps ends
  have content : name = found.render ++ [] := (lossless_identifier _).append_eq read
  rw [List.append_nil, Identifier.render_eq, bare] at content
  have content : name = Token.renderAll found.children := by simpa [Quote.mark] using content
  refine ⟨created found stored, create_eq_ok.mpr ⟨?_, ?_⟩, ?_, values, rfl⟩
  · obtain ⟨c, m, -, begins⟩ := (run_argName_sound read).head
    rw [content, begins]
    exact List.cons_ne_nil c m
  · rw [render_eq] at again
    have whole : found.render ++ (created found stored).tail = name ++ givenText value := by
      rw [Identifier.render_eq, bare, ← content, ← text]
      simp [tail, created, Quote.mark, triviaText]
    rw [← whole]
    exact again
  · exact (run_identifier_value read hn).trans content.symm

/-- Where no line continuation stands in the given name and value, a declaration with this name and
this value is created from them if and only if the name reads as one without quotes and the value
can be set by itself. No comment comes out of either. -/
theorem create_reads_back_iff {name : Text} {value : Option Text}
    (hn : ¬ HoldsBreak defaultEscape name) (hv : ∀ v ∈ value, ¬ HoldsBreak defaultEscape v) :
    (∃ a, create name value = .ok a ∧ a.argName = name ∧ a.argValue = value ∧ a.comments = []) ↔
      isBareName name = true ∧ ∀ v ∈ value, isValue v = true := by
  have he := isEscape_default
  constructor
  · rintro ⟨a, h, argName, argValue, -⟩
    obtain ⟨-, h⟩ := create_eq_ok.mp h
    obtain ⟨bare, text, rest⟩ := name_of_created hn hv h argName
    obtain ⟨sound, keeps⟩ := sound_of_parse he h
    constructor
    · have read := run_argName_of_isName he sound.name
        (r := []) fun _ => ⟨run_laterChar_nil, fun _ => rfl⟩
      rw [text, List.append_nil] at read
      exact isBareName_iff.mpr ⟨a.name, bare, read⟩
    · intro v given
      obtain rfl : value = some v := given
      exact isValue_of_created (hv v rfl) keeps rest argValue
  · rintro ⟨isName, areValues⟩
    obtain ⟨found, bare, read⟩ := isBareName_iff.mp isName
    cases value with
    | none =>
      refine create_of_sound none hn bare read rfl rfl ?_ fun _ => ?_
      · exact (sound_created read none).keepsValue_of_none he rfl
      · exact ⟨run_laterChar_nil, fun _ => rfl⟩
    | some value =>
      obtain ⟨children, stored, text, same⟩ :=
        Literal.exists_of_isSettable he (areValues value rfl) (hv value rfl)
      have assigned : assignedText (some ⟨quoteFor value, children⟩) = givenText (some value) :=
        congrArg ('=' :: ·) text
      have ends (l : Literal) : found.EndsBefore defaultEscape (created found (some l)).tail :=
        endsBefore_of_value (a := created found (some l)) he rfl
      refine create_of_sound _ hn bare read assigned (congrArg some same) ?_ (ends _)
      refine (sound_created read _).keepsValue_of_storable he rfl ?_ ?_
      · exact Literal.storable_of_readContent (l := .empty) stored
      · show Literal.takesComment [] ⟨quoteFor value, children⟩ = false
        cases quoteFor value <;> cases children <;> rfl

/-- The name `x` and the value `a b` are read back. -/
theorem create_reads_back_iff_sample :
    ∃ a, create ['x'] (some ['a', ' ', 'b']) = .ok a ∧ a.argName = ['x'] ∧
      a.argValue = some ['a', ' ', 'b'] ∧ a.comments = [] := by
  have values : ∀ v ∈ some ['a', ' ', 'b'], v = ['a', ' ', 'b'] := fun v h =>
    (Option.some.inj h).symm
  refine (create_reads_back_iff (mt HoldsBreak.newLine_mem (by decide)) ?_).mpr
    ⟨by decide +kernel, ?_⟩
  · intro v h
    rw [values v h]
    exact mt HoldsBreak.newLine_mem (by decide)
  · intro v h
    rw [values v h]
    decide +kernel

/-- The name `x=y` without a value is read back as the name `x` with the value `y`. -/
theorem created_argument_splits :
    ¬ HoldsBreak defaultEscape ['x', '=', 'y'] ∧
      ∃ a, create ['x', '=', 'y'] none = .ok a ∧ a.argName = ['x'] ∧ a.argValue = some ['y'] := by
  refine ⟨mt HoldsBreak.newLine_mem (by decide), ?_⟩
  have parts : (create ['x', '=', 'y'] none).toOption.map (fun a => (a.argName, a.argValue)) =
      some (['x'], some ['y']) := by
    decide +kernel
  obtain ⟨a, h, parts⟩ := exists_of_computed parts
  obtain ⟨argName, argValue⟩ := Prod.mk.inj parts
  exact ⟨a, h, argName, argValue⟩

end Arg

end DockerfileSyntax
