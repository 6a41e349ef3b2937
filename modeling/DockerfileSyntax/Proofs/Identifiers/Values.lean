import DockerfileSyntax.Proofs.Identifiers.Aggregates

/-!
# The values that identifiers take

A word begins with a letter or an underscore, and behind that there may be letters, digits and other
later characters, escaped characters and references to variables in any order: `Identifier.IsWord`.
Setting an identifier to a text does not go by this. Behind a reference it asks for a first
character once more, and it asks for none before a reference: `Identifier.Alternates`.

1. `alternates_of_steps`, `Alternates.reads`: these texts are what the grammar of identifiers reads.
2. `Alternates.follows`: they are made of what words are made of.
3. `setText_accepted_iff`: they are the values that an identifier without quotes takes.
4. `words_and_values_differ`: there are words that no identifier takes, and values that are none.
-/

namespace DockerfileSyntax

open Grammar DockerfileSyntax.Parser

namespace Identifier

/-! ## Words -/

/-- What may follow the first character of a word: later characters, each behind any number of line
continuations, escaped characters and references to variables. -/
inductive Follows (e : Char) : Text → Prop
  | nil : Follows e []
  | char {breaks : List Continuation} {c : Char} {s : Text} :
      (∀ k ∈ breaks, k.IsBreak e) → isIdentifierChar c = true → Follows e s →
      Follows e (breaksText breaks ++ c :: s)
  | escaped {c : Char} {s : Text} :
      isLineEnd c = false → breaksLine (c :: s) = false → Follows e s → Follows e (e :: c :: s)
  | reference {found : Reference} {s t : Text} :
      run (reference e) s = some (found, t) → Follows e t → Follows e s

/-- A word: a letter or an underscore, and what may follow it. -/
def IsWord (e : Char) (s : Text) : Prop :=
  ∃ c t, s = c :: t ∧ isIdentifierStart c = true ∧ Follows e t

/-- Runs of characters in turn with references. Where there is no run to go on with, at the
beginning and behind a reference, only a letter or an underscore begins one; the flag says whether
this is such a place. -/
inductive Alternates (e : Char) : Bool → Text → Prop
  | nil {atStart : Bool} : Alternates e atStart []
  | start {c : Char} {s : Text} :
      isIdentifierStart c = true → Alternates e false s → Alternates e true (c :: s)
  | char {breaks : List Continuation} {c : Char} {s : Text} :
      (∀ k ∈ breaks, k.IsBreak e) → isIdentifierChar c = true → Alternates e false s →
      Alternates e false (breaksText breaks ++ c :: s)
  | escaped {c : Char} {s : Text} :
      isLineEnd c = false → breaksLine (c :: s) = false → Alternates e false s →
      Alternates e false (e :: c :: s)
  | reference {atStart : Bool} {found : Reference} {s t : Text} :
      run (reference e) s = some (found, t) → Alternates e true t → Alternates e atStart s

/-! ## Characters of identifiers -/

variable {e c : Char} {s r : Text} {atStart : Bool}

theorem isIdentifierChar_of_start (h : isIdentifierStart c = true) : isIdentifierChar c = true := by
  rcases Bool.or_eq_true_iff.mp h with h | h <;> simp [isIdentifierChar, isAlphanumeric, h]

theorem not_isIdentifierChar_escape (he : IsEscape e) : isIdentifierChar e = false := by
  rcases he with rfl | rfl <;> decide

theorem not_isIdentifierChar_dollar : isIdentifierChar '$' = false := by decide

theorem first_eq (c : Char) :
    (isIdentifierStart c && !(excludedIn none).contains c) = isIdentifierStart c :=
  and_not_excluded (fun quote => by cases quote <;> decide) none c

theorem later_eq (e c : Char) :
    ((rules e).later c && !(excludedIn none).contains c) = isIdentifierChar c := by
  have noQuotes (quote : Quote) : isIdentifierChar quote.char = false := by
    cases quote <;> decide
  exact and_not_excluded noQuotes none c

/-! ## Runs and references -/

/-- A run of characters or a reference, outside quotes. -/
def part (e : Char) : Parser (List Token) :=
  firstOf [
    do let found ← reference e; return [found.toToken],
    nameRun (rules e) (excludedIn none)]

theorem part_eq (e : Char) : part e = aggregatePart (rules e) none := rfl

theorem run_part_eq_some {ts : List Token} :
    run (part e) s = some (ts, r) ↔
      (∃ found, run (reference e) s = some (found, r) ∧ ts = [found.toToken]) ∨
        (run (reference e) s = none ∧
          run (nameRun (rules e) (excludedIn none)) s = some (ts, r)) := by
  rw [part_eq]
  exact run_aggregatePart_eq_some

theorem Alternates.ofStart (h : Alternates e true s) : Alternates e false s := by
  cases h with
  | nil => exact .nil
  | start isFirst others =>
    exact .char (List.forall_mem_nil _) (isIdentifierChar_of_start isFirst) others
  | reference read others => exact .reference read others

/-- What later characters are read from goes on as the rest does. -/
theorem alternates_of_laterSteps {items : List (List Token)}
    (h : Steps (laterChar (rules e) (excludedIn none)) s items r) (rest : Alternates e false r) :
    Alternates e false s := by
  induction h with
  | nil => exact rest
  | cons first _ _ ih =>
    have behind := ih rest
    rcases run_laterChar_eq_some.mp first with plain | ⟨-, c, inLine, unbroken, -, rfl⟩
    · obtain ⟨breaks, c, all, allowed, -, rfl, -⟩ := run_charBelow_eq_some.mp plain
      exact .char all (Bool.and_eq_true_iff.mp allowed).1 behind
    · exact .escaped inLine unbroken behind

theorem alternates_of_part {ts : List Token} (h : run (part e) s = some (ts, r))
    (rest : Alternates e true r) : Alternates e true s := by
  rcases run_part_eq_some.mp h with ⟨found, read, -⟩ | ⟨-, read⟩
  · exact .reference read rest
  · obtain ⟨head, items, m, rfl, allowed, repeated, -⟩ := run_nameRun_eq_some.mp read
    have behind := alternates_of_laterSteps (run_many_eq_some.mp repeated).1 rest.ofStart
    exact .start (Bool.and_eq_true_iff.mp allowed).1 behind

theorem alternates_of_steps {parts : List (List Token)} (h : Steps (part e) s parts []) :
    Alternates e true s := by
  generalize rest : [] = r at h
  induction h with
  | nil =>
    rw [← rest]
    exact .nil
  | cons first _ _ ih => exact alternates_of_part first (ih rest)

/-! ## Reading -/

theorem run_laterChar_dollar (he : IsEscape e) (t : Text) :
    run (laterChar (rules e) (excludedIn none)) ('$' :: t) = none := by
  have stops : (rules e).StopAt (excludedIn none) '$' :=
    ⟨he.ne_dollar.symm, by decide, by decide, (later_eq e '$').trans not_isIdentifierChar_dollar⟩
  exact stops.run_laterChar_eq_none t

theorem run_reference_of_start (h : isIdentifierStart c = true) (s : Text) :
    run (reference e) (c :: s) = none := by
  refine run_referenceWith_of_not ?_
  have notDollar : c ≠ '$' :=
    ne_of_class (isIdentifierChar_of_start h) not_isIdentifierChar_dollar
  rw [startsReference_cons, beq_false_of_ne notDollar, Bool.false_and]

theorem ne_nil_of_run_part {ts : List Token} (h : run (part e) s = some (ts, r)) : s ≠ [] := by
  rcases run_part_eq_some.mp h with ⟨found, read, -⟩ | ⟨-, read⟩
  · obtain ⟨t, rfl, -⟩ := exists_of_run_reference read
    exact List.cons_ne_nil '$' t
  · obtain ⟨head, items, m, rfl, -, -, -⟩ := run_nameRun_eq_some.mp read
    exact List.cons_ne_nil head m

/-- How the text is read: as runs and references where a run cannot go on, and elsewhere as later
characters first. -/
def Reads (e : Char) : Bool → Text → Prop
  | true, s => ∃ parts, Steps (part e) s parts []
  | false, s => ∃ items m parts, Steps (laterChar (rules e) (excludedIn none)) s items m ∧
      run (laterChar (rules e) (excludedIn none)) m = none ∧ Steps (part e) m parts []

/-- Runs in turn with references are read as such: each run goes on up to the next reference. -/
theorem Alternates.reads (he : IsEscape e) (h : Alternates e atStart s) : Reads e atStart s := by
  induction h with
  | @nil atStart =>
    cases atStart with
    | true => exact ⟨[], .nil []⟩
    | false => exact ⟨[], [], [], .nil [], run_laterChar_nil, .nil []⟩
  | @start c s isFirst _ ih =>
    obtain ⟨items, m, parts, later, stop, others⟩ := ih
    have allowed := (first_eq c).trans isFirst
    have repeated := run_many_of_steps later (run_many_of_none stop)
    rw [List.append_nil] at repeated
    have read := run_part_eq_some.mpr (.inr ⟨run_reference_of_start (e := e) isFirst s,
      run_nameRun_eq_some.mpr ⟨c, items, s, rfl, allowed, repeated, rfl⟩⟩)
    have shorter : m.length < (c :: s).length := Nat.lt_succ_of_le (Regular.length_le repeated)
    exact ⟨_, .cons read shorter others⟩
  | @char breaks c s all isChar _ ih =>
    obtain ⟨items, m, parts, later, stop, others⟩ := ih
    have allowed := (later_eq e c).trans isChar
    have notEscape := ne_of_class isChar (not_isIdentifierChar_escape he)
    have read : run (laterChar (rules e) (excludedIn none)) (breaksText breaks ++ c :: s) =
        some (_, s) := run_laterChar_of_char all allowed notEscape s
    have shorter : s.length < (breaksText breaks ++ c :: s).length := by
      simp only [List.length_append, List.length_cons]
      omega
    exact ⟨_, m, parts, .cons read shorter later, stop, others⟩
  | @escaped c s inLine unbroken _ ih =>
    obtain ⟨items, m, parts, later, stop, others⟩ := ih
    have notLater := (later_eq e e).trans (not_isIdentifierChar_escape he)
    have read : run (laterChar (rules e) (excludedIn none)) (e :: c :: s) = some (_, s) :=
      run_laterChar_escaped notLater inLine unbroken
    have shorter : s.length < (e :: c :: s).length := by
      simp only [List.length_cons]
      omega
    exact ⟨_, m, parts, .cons read shorter later, stop, others⟩
  | @reference atStart found s t read _ ih =>
    obtain ⟨parts, others⟩ := ih
    obtain ⟨m, dollar, shorter⟩ := exists_of_run_reference read
    have whole : Steps (part e) s ([found.toToken] :: parts) [] :=
      .cons (run_part_eq_some.mpr (.inl ⟨found, read, rfl⟩)) shorter others
    cases atStart with
    | true => exact ⟨_, whole⟩
    | false =>
      refine ⟨[], s, _, .nil s, ?_, whole⟩
      rw [dollar]
      exact run_laterChar_dollar he m

/-- Outside quotes, a text reads as the content of an identifier if and only if it is not empty and
its runs are in turn with references. -/
theorem exists_complete_iff (he : IsEscape e) :
    (∃ children, complete (identifierContent (rules e) none) s = .ok children) ↔
      s ≠ [] ∧ Alternates e true s := by
  simp only [complete_eq_ok]
  constructor
  · rintro ⟨children, h⟩
    obtain ⟨parts, steps, -, nonempty, -⟩ := run_identifierContent_eq_some.mp h
    refine ⟨?_, alternates_of_steps steps⟩
    rintro rfl
    cases steps with
    | nil => exact nonempty rfl
    | cons read _ _ => exact ne_nil_of_run_part read rfl
  · rintro ⟨nonempty, h⟩
    obtain ⟨parts, steps⟩ := h.reads he
    have stop : run (part e) [] = none := by
      rw [Option.eq_none_iff_forall_ne_some]
      exact fun found read => ne_nil_of_run_part read rfl
    have some : parts ≠ [] := by
      rintro rfl
      cases steps
      exact nonempty rfl
    exact ⟨_, run_identifierContent_eq_some.mpr ⟨parts, steps, stop, some, rfl⟩⟩

/-- Apart from how it begins, what is made of runs in turn with references is made of what words are
made of. -/
theorem Alternates.follows (h : Alternates e atStart s) : Follows e s := by
  induction h with
  | nil => exact .nil
  | start isFirst _ ih =>
    exact .char (List.forall_mem_nil _) (isIdentifierChar_of_start isFirst) ih
  | char all isChar _ ih => exact .char all isChar ih
  | escaped inLine unbroken _ ih => exact .escaped inLine unbroken ih
  | reference read _ ih => exact .reference read ih

/-! ## Setting an identifier -/

/-- A text that is not empty is stored if it reads as the content of an identifier in its quote. -/
theorem apply_setText_iff (nonempty : s ≠ []) {i i' : Identifier} :
    Edit.apply (setText e s) i = ⟨i', none⟩ ↔
      i'.quote = i.quote ∧ complete (identifierContent (rules e) i.quote) s = .ok i'.children := by
  have passed : requireNonEmpty .identifier s = .ok () := by
    rw [requireNonEmpty, if_neg (by simpa using nonempty)]
  obtain ⟨quote', children'⟩ := i'
  rw [Edit.apply, setText, Edit.check_bind, passed]
  dsimp only
  rw [Edit.get_bind, Edit.check_bind, readAs]
  cases complete (identifierContent (rules e) i.quote) s with
  | error failure =>
    constructor
    · intro h
      cases h
    · rintro ⟨-, same⟩
      cases same
  | ok children =>
    constructor
    · intro h
      cases h
      exact ⟨rfl, rfl⟩
    · rintro ⟨rfl, same⟩
      cases same
      rfl

theorem apply_setText_nil (i i' : Identifier) : Edit.apply (setText e []) i ≠ ⟨i', none⟩ := by
  intro h
  cases h

/-- An identifier without quotes takes those texts whose runs are in turn with references. Each of
them begins with a letter or an underscore, or with a reference, and goes on as a word may. -/
theorem setText_accepted_iff (he : IsEscape e) {i : Identifier} (bare : i.quote = none)
    (value : Text) :
    ((∃ i', Edit.apply (setText e value) i = ⟨i', none⟩) ↔
      value ≠ [] ∧ Alternates e true value) ∧
    ((∃ i', Edit.apply (setText e value) i = ⟨i', none⟩) → IsWord e value ∨
      ∃ found t, run (reference e) value = some (found, t) ∧ Follows e t) := by
  have accepted : (∃ i', Edit.apply (setText e value) i = ⟨i', none⟩) ↔
      value ≠ [] ∧ Alternates e true value := by
    cases value with
    | nil =>
      constructor
      · rintro ⟨i', h⟩
        exact absurd h (apply_setText_nil i i')
      · rintro ⟨nonempty, -⟩
        exact absurd rfl nonempty
    | cons c s =>
      rw [← exists_complete_iff he]
      simp only [apply_setText_iff (List.cons_ne_nil c s), bare]
      constructor
      · rintro ⟨i', -, read⟩
        exact ⟨i'.children, read⟩
      · rintro ⟨children, read⟩
        exact ⟨⟨none, children⟩, rfl, read⟩
  refine ⟨accepted, fun h => ?_⟩
  obtain ⟨nonempty, alternates⟩ := accepted.mp h
  cases alternates with
  | nil => exact absurd rfl nonempty
  | @start c s isFirst others => exact .inl ⟨c, s, rfl, isFirst, others.follows⟩
  | @reference _ found _ t read others => exact .inr ⟨found, t, read, others.follows⟩

/-- The identifier `x` takes `a$B`. -/
theorem setText_accepted_sample :
    (Identifier.new ['x']).quote = none ∧ Alternates '`' true ['a', '$', 'B'] ∧
      ∃ i', Edit.apply (setText '`' ['a', '$', 'B']) (.new ['x']) = ⟨i', none⟩ := by
  have read : run (reference '`') ['$', 'B'] = some (⟨false, [.string ['B']]⟩, []) := by
    decide +kernel
  have alternates : Alternates '`' true ['a', '$', 'B'] :=
    .start (by decide) (.reference read .nil)
  obtain ⟨accepted, -⟩ := setText_accepted_iff (.inr rfl) (i := .new ['x']) rfl ['a', '$', 'B']
  exact ⟨rfl, alternates, accepted.mpr ⟨List.cons_ne_nil 'a' _, alternates⟩⟩

/-- Behind the reference in `a${A}1` stands a digit, which begins no run: no identifier without
quotes takes this word. And `$A` is taken, although it begins with no letter. -/
theorem words_and_values_differ :
    (IsWord '\\' "a$\x7bA\x7d1".toList ∧
      ¬ ∃ i', Edit.apply (setText '\\' "a$\x7bA\x7d1".toList) (.new ['x']) = ⟨i', none⟩) ∧
    ¬ IsWord '\\' ['$', 'A'] ∧
      ∃ i', Edit.apply (setText '\\' ['$', 'A']) (.new ['x']) = ⟨i', none⟩ := by
  have read : run (reference '\\') "$\x7bA\x7d1".toList =
      some (⟨true, [.string ['A']]⟩, ['1']) := by
    decide +kernel
  have refused : (Edit.apply (setText '\\' "a$\x7bA\x7d1".toList) (.new ['x'])).error.isSome =
      true := by
    decide +kernel
  have taken : (Edit.apply (setText '\\' ['$', 'A']) (.new ['x'])).error = none := by
    decide +kernel
  refine ⟨⟨⟨'a', _, rfl, by decide, ?_⟩, ?_⟩, ?_, ?_⟩
  · exact .reference read (.char (List.forall_mem_nil _) (by decide) .nil)
  · rintro ⟨i', h⟩
    rw [h] at refused
    cases refused
  · rintro ⟨c, t, same, isFirst, -⟩
    rw [← (List.cons.inj same).1] at isFirst
    exact absurd isFirst (by decide)
  · exact ⟨_, by rw [← taken]⟩

end Identifier

end DockerfileSyntax
