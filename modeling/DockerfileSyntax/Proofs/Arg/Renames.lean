import DockerfileSyntax.Proofs.Arg.Reread

/-!
# Renaming a declaration and removing its value

A new name is read by itself, and so it has the form of a name; but then it stands before the text
that was there. After any renames and removals the declaration is still read as it is, unless a name
without quotes ends with escaped white space and the end of the line follows it. There the escape
character and the white space begin a line continuation.
-/

namespace DockerfileSyntax

open Grammar DockerfileSyntax.Parser

namespace Arg

/-- A name is set if it is read by itself and has no quotes. If it is refused, nothing is
changed. -/
theorem setArgName_cases (name : Text) (a : Arg) :
    (∃ refusal, setArgName name a = .error (.invalid .argName refusal) a) ∨
      ∃ found, complete (Grammar.argName a.escape) name = .ok found ∧ found.quote = none ∧
        setArgName name a =
          .ok () { a with name := { a.name with children := found.children } } := by
  rw [setArgName, Edit.check_bind]
  rcases requireNonEmpty_cases .argName name with ⟨-, passed⟩ | refused
  · rw [passed, Edit.get_bind, Edit.check_bind, readAs]
    cases complete (Grammar.argName a.escape) name with
    | error failure => exact .inl ⟨.malformed failure, rfl⟩
    | ok found =>
      obtain ⟨quote, children⟩ := found
      cases quote with
      | some quote => exact .inl ⟨.quotedName name, rfl⟩
      | none => exact .inr ⟨⟨none, children⟩, rfl, rfl, rfl⟩
  · rw [refused]
    exact .inl ⟨.empty, rfl⟩

/-- Without a value, the name stands before the trail. -/
theorem Sound.trail_of_tail {e : Char} (he : IsEscape e) {a : Arg} (h : a.Sound e)
    (noValue : a.value = none) : Trail e a.tail a.trail := by
  have trail := trail_of_run he h.trail
  rwa [tail, noValue]

/-- Nothing but a name without quotes stands before the end of the line, and it ends with escaped
white space: the line would go on there. -/
def joinsLines (a : Arg) : Bool :=
  a.value.isNone && a.name.quote.isNone && endsInEscapedBlank a.escape a.name.value &&
    startsLine a.trail

/-- A name may end where it does unless it joins lines. -/
theorem Sound.endsBefore {e : Char} (he : IsEscape e) {a : Arg} (h : a.Sound e)
    (apart : a.joinsLines = false) : a.name.EndsBefore e a.tail := by
  cases hv : a.value with
  | some value => exact endsBefore_of_value he hv
  | none =>
    intro bare
    have trail := h.trail_of_tail he hv
    refine ⟨trail.run_laterChar he _, fun ends => ?_⟩
    rw [trail.breaksLine_eq he]
    simpa [joinsLines, hv, bare, h.escape, ends] using apart

/-- Before a trail, no value is read. -/
theorem Sound.keepsValue_of_none {e : Char} (he : IsEscape e) {a : Arg} (h : a.Sound e)
    (noValue : a.value = none) : a.KeepsValue e := by
  have trail := h.trail_of_tail he noValue
  have notEquals : a.tail.head? ≠ some '=' :=
    trail.head_ne (by decide) (by decide) (by decide) (by rcases he with rfl | rfl <;> decide)
  have text : a.tail = triviaText a.trail := by rw [tail, noValue]; rfl
  rw [KeepsValue, noValue, run_assignment_of_head_ne e notEquals, text]

/-- A declaration whose name joins lines is read back with another name, if at all. -/
theorem Sound.not_readsLike {e : Char} (he : IsEscape e) {a b : Arg} (h : a.Sound e)
    (joined : a.joinsLines = true) (hb : parse e a.render = .ok b) : ¬ b.ReadsLike a := by
  simp only [joinsLines, Bool.and_eq_true, Option.isNone_iff_eq_none, h.escape] at joined
  obtain ⟨⟨⟨noValue, bare⟩, ends⟩, line⟩ := joined
  obtain ⟨r, hr, -⟩ := h.of_parse_render he hb
  have trail := h.trail_of_tail he noValue
  have broken : breaksLine a.tail = true := (trail.breaksLine_eq he).trans line
  intro same
  exact value_ne_of_broken he h.name bare ends broken hr same.argName

/-! ## Any number of edits -/

/-- An edit that renames the argument or removes its value. -/
inductive NameEdit where
  | rename (name : Text)
  | removeValue

/-- What the edit does. -/
def NameEdit.run : NameEdit → Edit Arg Unit
  | rename name => setArgName name
  | removeValue => setArgValue none

/-- The declaration after these edits. Each of them may fail. -/
def afterAll (edits : List NameEdit) (a : Arg) : Arg :=
  edits.foldl (fun a edit => (Edit.apply edit.run a).result) a

/-- An edit keeps a declaration sound, and it keeps or removes the value. -/
theorem Sound.after {e : Char} (he : IsEscape e) {a : Arg} (h : a.Sound e) (value : a.KeepsValue e)
    (edit : NameEdit) : (Edit.apply edit.run a).result.Sound e ∧
      (Edit.apply edit.run a).result.KeepsValue e := by
  cases edit with
  | removeValue =>
    have sound : Sound e { a with value := none } := ⟨h.escape, h.heading, h.name, h.trail⟩
    exact ⟨sound, sound.keepsValue_of_none he rfl⟩
  | rename name =>
    rcases setArgName_cases name a with ⟨error, he'⟩ | ⟨found, hf, -, ho⟩
    · rw [NameEdit.run, Edit.apply_of_error he']
      exact ⟨h, value⟩
    · rw [NameEdit.run, Edit.apply_of_ok ho]
      rw [h.escape, complete_eq_ok] at hf
      have isName : IsName e found.children := run_argName_sound hf
      exact ⟨⟨h.escape, h.heading, isName, h.trail⟩, value⟩

theorem Sound.afterAll {e : Char} (he : IsEscape e) {a : Arg} (h : a.Sound e)
    (value : a.KeepsValue e) (edits : List NameEdit) :
    (a.afterAll edits).Sound e ∧ (a.afterAll edits).KeepsValue e := by
  induction edits generalizing a with
  | nil => exact ⟨h, value⟩
  | cons edit edits ih =>
    obtain ⟨h', value'⟩ := h.after he value edit
    exact ih h' value'

/-- After any renames and removals, successful or not, a declaration that was read is read again
with the same name, value and comments if and only if its name does not join lines. -/
theorem reparses_after_renames_iff {e : Char} (he : IsEscape e) {text : Text} {a : Arg}
    (h : parse e text = .ok a) (edits : List NameEdit) :
    (∃ b, parse e (a.afterAll edits).render = .ok b ∧ b.ReadsLike (a.afterAll edits)) ↔
      (a.afterAll edits).joinsLines = false := by
  -- soundness is kept by every edit, so that only the seam behind the name is left to look at
  obtain ⟨sound, value⟩ := sound_of_parse he h
  obtain ⟨sound, value⟩ := sound.afterAll he value edits
  constructor
  · rintro ⟨b, hb, same⟩
    cases joined : (a.afterAll edits).joinsLines with
    | false => rfl
    | true => exact absurd same (sound.not_readsLike he joined hb)
  · intro apart
    exact ⟨_, sound.parse_render he value (sound.endsBefore he apart), readsLike_refl _⟩

/-- `ARG x=1` becomes `ARG y` and is read as that; the empty name in between is refused. -/
theorem reparses_after_renames_sample :
    ∃ a, parse '\\' ['A', 'R', 'G', ' ', 'x', '=', '1', '\n'] = .ok a ∧
      (Edit.apply (NameEdit.rename []).run (a.afterAll [.rename ['y']])).error ≠ none ∧
      (a.afterAll [.rename ['y'], .rename [], .removeValue]).render = "ARG y\n".toList ∧
      ∃ b, parse '\\' (a.afterAll [.rename ['y'], .rename [], .removeValue]).render = .ok b ∧
        b.ReadsLike (a.afterAll [.rename ['y'], .rename [], .removeValue]) := by
  have facts : (parse '\\' ['A', 'R', 'G', ' ', 'x', '=', '1', '\n']).toOption.map (fun a =>
      ((Edit.apply (NameEdit.rename []).run (a.afterAll [.rename ['y']])).error.isSome,
        (a.afterAll [.rename ['y'], .rename [], .removeValue]).render,
        (a.afterAll [.rename ['y'], .rename [], .removeValue]).joinsLines)) =
      some (true, "ARG y\n".toList, false) := by
    decide +kernel
  obtain ⟨a, h, facts⟩ := exists_of_computed facts
  obtain ⟨refused, facts⟩ := Prod.mk.inj facts
  obtain ⟨text, apart⟩ := Prod.mk.inj facts
  exact ⟨a, h, Option.isSome_iff_ne_none.mp refused, text,
    (reparses_after_renames_iff (.inl rfl) h _).mpr apart⟩

/-- `ARG x\ =v` without its value is a name, escaped white space and the end of the line. It is read
as the name `x` on a line that goes on. -/
theorem removal_joins_lines :
    ∃ a, parse '\\' ['A', 'R', 'G', ' ', 'x', '\\', ' ', '=', 'v', '\n'] = .ok a ∧
      (a.afterAll [.removeValue]).render = "ARG x\\ \n".toList ∧
      (a.afterAll [.removeValue]).argName = ['x', '\\', ' '] ∧
      (∃ b, parse '\\' (a.afterAll [.removeValue]).render = .ok b ∧ b.argName = ['x']) ∧
      ¬ ∃ b, parse '\\' (a.afterAll [.removeValue]).render = .ok b ∧
        b.ReadsLike (a.afterAll [.removeValue]) := by
  have facts : (parse '\\' ['A', 'R', 'G', ' ', 'x', '\\', ' ', '=', 'v', '\n']).toOption.map
      (fun a => ((a.afterAll [.removeValue]).render, (a.afterAll [.removeValue]).argName)) =
      some ("ARG x\\ \n".toList, ['x', '\\', ' ']) := by
    decide +kernel
  obtain ⟨a, h, facts⟩ := exists_of_computed facts
  obtain ⟨text, name⟩ := Prod.mk.inj facts
  have reread : (parse '\\' "ARG x\\ \n".toList).toOption.map Arg.argName = some ['x'] := by
    decide +kernel
  obtain ⟨b, read, shorter⟩ := exists_of_computed reread
  rw [← text] at read
  refine ⟨a, h, text, name, ⟨b, read, shorter⟩, ?_⟩
  rintro ⟨b', read', same⟩
  obtain rfl := Except.ok.inj (read.symm.trans read')
  have differs := same.argName
  rw [shorter, name] at differs
  cases differs

end Arg

end DockerfileSyntax
