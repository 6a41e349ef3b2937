import DockerfileSyntax.Proofs.Arg.Renames
import DockerfileSyntax.Proofs.Arg.Resolution
import DockerfileSyntax.Proofs.Reading.Results

/-!
# Declarations that can be come by

A declaration is read from a text or created, and then it is edited any number of times, with
success or without. `Arg.Obtained` says so; what is true of all that is read and kept by every edit
is true of all these declarations. `Arg.Formed` is such a property, under any escape character: the
name is a name, and what stands around the parts has been read as trivia. What an edit can do to a
declaration of this form is said once, in `Arg.Formed.run_cases`.
-/

namespace DockerfileSyntax

open Grammar DockerfileSyntax.Parser

namespace Arg

/-- An edit of a declaration. -/
inductive Change where
  | name (text : Text)
  | value (text : Option Text)
  | instructionName (text : Text)
  | resolve (env : Environment)

/-- What the edit does. -/
def Change.run : Change → Edit Arg Unit
  | .name text => setArgName text
  | .value text => setArgValue text
  | .instructionName text => setInstructionName text
  | .resolve env => Arg.resolve env

/-- The declarations that can be come by where `e` is the escape character: read from a text,
created where this is the default escape character, and edited any number of times, with success or
without. -/
inductive Obtained (e : Char) : Arg → Prop
  | read {text : Text} {a : Arg} : parse e text = .ok a → Obtained e a
  | created {name : Text} {value : Option Text} {a : Arg} :
      e = defaultEscape → create name value = .ok a → Obtained e a
  | edited (change : Change) {a : Arg} :
      Obtained e a → Obtained e (Edit.apply change.run a).result

/-- What is created is read from a text. -/
theorem exists_parse_of_create {name : Text} {value : Option Text} {a : Arg}
    (h : create name value = .ok a) : ∃ text, parse defaultEscape text = .ok a := by
  cases name with
  | nil => cases h
  | cons c name => exact ⟨_, h⟩

/-- What is true of all that is read and kept by every edit is true of all that can be come by. -/
theorem Obtained.of_kept {e : Char} {P : Arg → Prop}
    (read : ∀ (text : Text) (a : Arg), parse e text = .ok a → P a)
    (kept : ∀ (change : Change) (a : Arg), P a → P (Edit.apply change.run a).result)
    {a : Arg} (h : Obtained e a) : P a := by
  induction h with
  | read h => exact read _ _ h
  | created default h =>
    subst default
    obtain ⟨text, h⟩ := exists_parse_of_create h
    exact read text _ h
  | edited change _ ih => exact kept change _ ih

end Arg

/-! ## Renaming the instruction -/

theorem Keyword.setText_cases (value : Text) (k : Keyword) :
    (∃ refusal, Edit.apply (setText value) k = ⟨k, some (.invalid .keyword refusal)⟩) ∨
      (value ≠ [] ∧ Edit.apply (setText value) k = ⟨.new value, none⟩) := by
  rw [setText, Edit.apply, Edit.check_bind]
  rcases requireNonEmpty_cases .keyword value with ⟨nonempty, passed⟩ | refused
  · rw [passed]
    dsimp only
    cases value.find? fun c => !isKeywordChar c with
    | some char => exact .inl ⟨.notInKeyword char, rfl⟩
    | none => exact .inr ⟨nonempty, rfl⟩
  · rw [refused]
    exact .inl ⟨.empty, rfl⟩

theorem Heading.setName_cases (name : Text) (h : Heading) :
    (∃ field refusal, Edit.apply (setName name) h = ⟨h, some (.invalid field refusal)⟩) ∨
      (name.toUpperCase ≠ [] ∧
        Edit.apply (setName name) h = ⟨{ h with keyword := .new name.toUpperCase }, none⟩) := by
  rw [setName, Edit.apply, Edit.check_bind]
  rcases requireNonEmpty_cases .instructionName name with ⟨-, passed⟩ | refused
  · rw [passed]
    have within := Edit.apply_within h.keyword (fun keyword => { h with keyword })
      (Keyword.setText name.toUpperCase) h
    rcases Keyword.setText_cases name.toUpperCase h.keyword with
      ⟨refusal, refused⟩ | ⟨nonempty, done⟩
    · rw [refused] at within
      exact .inl ⟨.keyword, refusal, within⟩
    · rw [done] at within
      exact .inr ⟨nonempty, within⟩
  · rw [refused]
    exact .inl ⟨.instructionName, .empty, rfl⟩

namespace Arg

/-- The keyword is replaced by the name in upper case, or nothing is changed. -/
theorem setInstructionName_cases (name : Text) (a : Arg) :
    (∃ field refusal,
        Edit.apply (setInstructionName name) a = ⟨a, some (.invalid field refusal)⟩) ∨
      (name.toUpperCase ≠ [] ∧ Edit.apply (setInstructionName name) a =
        ⟨{ a with heading := { a.heading with keyword := .new name.toUpperCase } }, none⟩) := by
  have within := Edit.apply_within a.heading (fun heading => { a with heading })
    (Heading.setName name) a
  rcases Heading.setName_cases name a.heading with ⟨field, refusal, refused⟩ | ⟨nonempty, done⟩
  · rw [refused] at within
    exact .inl ⟨field, refusal, within⟩
  · rw [done] at within
    exact .inr ⟨nonempty, within⟩

end Arg

/-! ## The form of a declaration -/

/-- The errors of edits: a field cannot hold a value, or a variable is not set. -/
inductive EditError : Error → Prop
  | invalid (field : EditField) (refusal : Refusal) : EditError (.invalid field refusal)
  | unset (what : UnsetVariable) : EditError (.unset what)

/-- The form of a heading: around the keyword there is nothing but trivia, and the keyword is made
of strings and line continuations. -/
structure Heading.Formed (e : Char) (h : Heading) : Prop where
  lead : PlainTrivia e h.lead
  keyword : ∀ t ∈ h.keyword.children, WordPart e t
  gap : PlainTrivia e h.gap

/-- The form of a declaration. The value may be any literal. -/
structure Arg.Formed (e : Char) (a : Arg) : Prop where
  escape : a.escape = e
  heading : a.heading.Formed e
  name : IsName e a.name.children
  trail : PlainTrivia e a.trail

namespace Grammar

variable (e : Char)

theorem gives_nameGap : Gives (nameGap e) (PlainTrivia e) := by
  refine (gives_any _).bind fun _ _ => (gives_blankRun e).bind fun gap hg => ?_
  refine (gives_continuation e).bind_optional ?_ fun break_ isBreak => ?_
  · exact (gives_blankRun e).bind fun _ before => gives_pure (hg.append before)
  · have plain : (Trivia.continuation break_).IsPlain e := isBreak
    exact (gives_interludes e).bind fun _ below => (gives_blankRun e).bind fun _ before =>
      gives_pure ((hg.append (below.cons plain)).append before)

theorem gives_beginning : Gives (beginning e) (Heading.Formed e) :=
  (gives_blankRun e).bind fun _ lead => (gives_keyword e _).bind fun _ keyword =>
    (gives_nameGap e).bind fun _ gap => gives_pure ⟨lead, keyword, gap⟩

end Grammar

namespace Arg

variable {e : Char} {a : Arg}

/-- What is read has the form of a declaration. -/
theorem formed_of_parse {text : Text} (h : parse e text = .ok a) : a.Formed e := by
  obtain ⟨r, r', r₂, heading, name, -, trail, escape⟩ := run_arg_eq_some.mp (parse_eq_ok.mp h)
  exact ⟨escape, (gives_beginning e).holds heading, run_argName_sound name,
    (gives_ending e).holds trail⟩

/-- What an edit may leave in the place of the value: what has been there, nothing, content that is
read from a text, or what the value becomes when its references are expanded. -/
inductive NextValue (a : Arg) : Option Literal → Prop
  | kept : NextValue a a.value
  | removed : NextValue a none
  | read {quote : Option Quote} {text : Text} {children : List Token} :
      Literal.readContent .argValue a.escape [] true quote text = .ok children →
      NextValue a (some ⟨quote, children⟩)
  | resolved {env : Environment} {l l' : Literal} :
      a.value = some l → l.resolve env = .ok l' → NextValue a (some l')

/-- An edit is refused and changes nothing, or it replaces one part. -/
theorem Formed.run_cases (h : a.Formed e) (change : Change) :
    (∃ error, EditError error ∧ Edit.apply change.run a = ⟨a, some error⟩) ∨
    (∃ children, IsName e children ∧
      Edit.apply change.run a = ⟨{ a with name := { a.name with children } }, none⟩) ∨
    (∃ value, a.NextValue value ∧ Edit.apply change.run a = ⟨{ a with value }, none⟩) ∨
    ∃ text, text ≠ [] ∧ Edit.apply change.run a =
      ⟨{ a with heading := { a.heading with keyword := .new text } }, none⟩ := by
  cases change with
  | name text =>
    rcases setArgName_cases text a with ⟨refusal, refused⟩ | ⟨found, read, -, done⟩
    · exact .inl ⟨_, .invalid .argName refusal, Edit.apply_of_error refused⟩
    · rw [h.escape, complete_eq_ok] at read
      exact .inr (.inl ⟨found.children, run_argName_sound read, Edit.apply_of_ok done⟩)
  | value text =>
    cases text with
    | none => exact .inr (.inr (.inl ⟨none, .removed, rfl⟩))
    | some text =>
      have stored := apply_setArgValue text a
      cases read : Literal.readContent .argValue a.escape [] true
          ((a.value.getD .empty).quoteWith text) text with
      | ok children =>
        rw [read] at stored
        exact .inr (.inr (.inl ⟨_, .read read, stored⟩))
      | error error =>
        rw [read] at stored
        obtain ⟨refusal, rfl⟩ := Literal.readContent_eq_error read
        exact .inl ⟨_, .invalid .argValue refusal, stored⟩
  | instructionName text =>
    rcases setInstructionName_cases text a with ⟨field, refusal, refused⟩ | ⟨nonempty, done⟩
    · exact .inl ⟨_, .invalid field refusal, refused⟩
    · exact .inr (.inr (.inr ⟨_, nonempty, done⟩))
  | resolve env =>
    have resolved := apply_resolve (h.name.resolve_eq env)
    cases hv : a.value with
    | none =>
      rw [hv] at resolved
      exact .inr (.inr (.inl ⟨a.value, .kept, resolved⟩))
    | some l =>
      rw [hv] at resolved
      dsimp only at resolved
      cases hl : l.resolve env with
      | ok l' =>
        rw [hl] at resolved
        exact .inr (.inr (.inl ⟨some l', .resolved hv hl, resolved⟩))
      | error unset =>
        rw [hl] at resolved
        exact .inl ⟨_, .unset unset, resolved⟩

/-- Every edit keeps the form of a declaration, whether it succeeds or not. -/
theorem Formed.after (h : a.Formed e) (change : Change) :
    (Edit.apply change.run a).result.Formed e := by
  rcases h.run_cases change with ⟨error, -, refused⟩ | ⟨children, isName, done⟩ |
    ⟨value, -, done⟩ | ⟨text, -, done⟩
  · rw [refused]
    exact h
  · rw [done]
    exact ⟨h.escape, h.heading, isName, h.trail⟩
  · rw [done]
    exact ⟨h.escape, h.heading, h.name, h.trail⟩
  · rw [done]
    have keyword : ∀ t ∈ (Keyword.new text).children, WordPart e t :=
      List.forall_mem_singleton.mpr (.string text)
    exact ⟨h.escape, ⟨h.heading.lead, keyword, h.heading.gap⟩, h.name, h.trail⟩

/-- An edit fails for a text that a field cannot hold or for a variable that is not set. -/
theorem Formed.editError (h : a.Formed e) {change : Change} {error : Error}
    (failed : (Edit.apply change.run a).error = some error) : EditError error := by
  rcases h.run_cases change with ⟨_, isError, refused⟩ | ⟨_, -, done⟩ | ⟨_, -, done⟩ |
    ⟨_, -, done⟩
  · rw [refused] at failed
    rwa [← Option.some.inj failed]
  all_goals
    rw [done] at failed
    cases failed

/-- All declarations that can be come by have the form of a declaration. -/
theorem Obtained.formed (h : Obtained e a) : a.Formed e :=
  h.of_kept (P := Formed e) (fun _ _ read => formed_of_parse read) fun change _ formed =>
    formed.after change

end Arg

end DockerfileSyntax
