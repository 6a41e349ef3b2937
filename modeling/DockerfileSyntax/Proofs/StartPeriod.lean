import DockerfileSyntax.Proofs.Edits
import DockerfileSyntax.Proofs.KeyValue
import DockerfileSyntax.Proofs.Keywords
import DockerfileSyntax.StartPeriod

/-!
# Start periods under edits

A start period flag that is read, and any that comes out of it when its value is set, replaced and
removed, is well formed, and a well-formed flag is read back as it is. The separator stays what it
is as long as there is a value; an edit that adds a value writes an equals sign.

1. `StartPeriod.parse_eq_ok_iff`: a text reads as a flag if and only if the flag is well formed and
   renders to the text.
2. `StartPeriod.WellFormed.after_setValue`: an edit keeps a flag well formed.
3. `StartPeriod.reparses_after_values`: after any edits the flag is read back.
-/

namespace DockerfileSyntax

open Grammar DockerfileSyntax.Parser

namespace StartPeriod

variable {e : Char} {p : StartPeriod}

/-- The key has been read as the key of the flag, and a value, if there is one, is a literal as the
flag may have it, behind a separator. -/
structure WellFormed (e : Char) (p : StartPeriod) : Prop where
  escape : p.escape = e
  isFlag : p.isFlag = true
  key : ∃ s r, run (keyword e keyName) s = some (p.keyToken, r)
  assigned : ∀ between (value : Literal), p.assigned = some (between, value) →
    between.WellFormed ∧ value.WellFormed e .ends []

/-! ## Reading -/

/-- The text of the separator and the value. -/
def assignedText : Option (Separator × Literal) → Text
  | none => []
  | some (between, value) => between.toToken.render ++ value.render

theorem render_eq (p : StartPeriod) :
    p.render = (if p.isFlag then flagMark else []) ++
      (Keyword.render p.keyToken ++ assignedText p.assigned) := by
  obtain ⟨isFlag, keyToken, assigned, escape⟩ := p
  rcases assigned with _ | ⟨between, value⟩ <;> cases isFlag <;>
    simp [KeyValue.render, KeyValue.tokens, assignedText, ValueKind.toToken, Keyword.render,
      Literal.render]

theorem parse_eq_ok {s : Text} :
    parse e s = .ok p ↔ run (keyValue e true (K := .keyword) (V := .literal)
      (keyword e keyName) (literal e .ends [])) s = some (p, []) :=
  readAll_eq_ok.trans complete_eq_ok

theorem wellFormed_of_parse {s : Text} (h : parse e s = .ok p) : p.WellFormed e := by
  obtain ⟨isFlag, escape, t, m, -, hk, ha⟩ := run_keyValue_eq_some.mp (parse_eq_ok.mp h)
  obtain ⟨_, keyToken, assigned, _⟩ := p
  rcases run_optional_eq_some.mp ha with ⟨⟨between, value⟩, rfl, found⟩ | ⟨rfl, -, -⟩
  · obtain ⟨m', hb, hv⟩ := run_assigning_eq_some.mp found
    refine ⟨escape, isFlag, ⟨t, m, hk⟩, ?_⟩
    intro between' value' same
    cases same
    exact ⟨run_separator_sound hb, run_literal_sound (by decide) hv⟩
  · exact ⟨escape, isFlag, ⟨t, m, hk⟩, nofun⟩

theorem apart_of_isEscape (he : IsEscape e) :
    ∀ letter ∈ keyName.tail, sameLetter e letter = false := by
  have none : keyName.tail.all (fun letter => !sameLetter e letter) = true := by
    rcases he with rfl | rfl <;> decide +kernel
  intro letter hl
  simpa using List.all_eq_true.mp none letter hl

/-- The key is read back before whatever stands behind it. -/
theorem WellFormed.run_key (he : IsEscape e) (h : p.WellFormed e) (m : Text) :
    run (keyword e keyName) (Keyword.render p.keyToken ++ m) = some (p.keyToken, m) := by
  obtain ⟨s, r, hk⟩ := h.key
  have hk : run (keyword e ('s' :: keyName.tail)) s = some (p.keyToken, r) := hk
  obtain ⟨-, -, -, again⟩ := run_keyword_of_run (apart_of_isEscape he) hk
  exact again m

/-- The separator and the value are read back behind the key. -/
theorem run_assigning_of_wellFormed (he : IsEscape e) {between : Separator} {value : Literal}
    (hb : between.WellFormed) (hv : value.WellFormed e .ends []) :
    run (assigning (literal e .ends [])) (between.toToken.render ++ value.render) =
      some ((between, value), []) := by
  have first := run_separator_of_wellFormed hb fun c hc => hv.head_notBlank he (by decide) hc
  have second := run_literal_of_wellFormed he (by decide) hv value.endsBefore_nil
  rw [List.append_nil] at second
  exact run_assigning_eq_some.mpr ⟨_, first, second⟩

/-- A well-formed flag is read back as it is. -/
theorem WellFormed.parse_render (he : IsEscape e) (h : p.WellFormed e) :
    parse e p.render = .ok p := by
  rw [parse_eq_ok, run_keyValue_eq_some, render_eq]
  refine ⟨h.isFlag, h.escape, _, _, by rw [h.isFlag], h.run_key he (assignedText p.assigned), ?_⟩
  rcases ha : p.assigned with _ | ⟨between, value⟩
  · exact run_optional_of_none (run_assigning_nil _)
  · obtain ⟨isSeparator, isValue⟩ := h.assigned between value ha
    exact run_optional_of_some (run_assigning_of_wellFormed he isSeparator isValue)

/-- The grammar of the flag is exact: a text reads as a flag if and only if the flag is well formed
and renders to the text. -/
theorem parse_eq_ok_iff (he : IsEscape e) {text : Text} :
    parse e text = .ok p ↔ p.render = text ∧ p.WellFormed e := by
  constructor
  · intro h
    exact ⟨(parse_renders e text).2.2.1 p h, wellFormed_of_parse h⟩
  · rintro ⟨rfl, wellFormed⟩
    exact wellFormed.parse_render he

/-! ## Edits -/

/-- Setting a value either changes nothing or stores a well-formed literal, behind the separator
that is there or behind an equals sign. -/
theorem setValue_cases (value : Text) (p : StartPeriod) :
    (∃ error, Edit.apply (KeyValue.setValue (some value)) p = ⟨p, some error⟩) ∨
      ∃ between part, Edit.apply (KeyValue.setValue (some value)) p =
          ⟨{ p with assigned := some (between, part) }, none⟩ ∧
        (between = .equals ∨ ∃ old, p.assigned = some (between, old)) ∧
        Literal.WellFormed p.escape .ends [] part := by
  obtain ⟨isFlag, keyToken, assigned, escape⟩ := p
  rcases assigned with _ | ⟨between, old⟩
  · have added : KeyValue.setValue (some value) (⟨isFlag, keyToken, none, escape⟩ : StartPeriod) =
        ((Edit.edited (Literal.setContent .value escape [] false value) (.ofValue value) :
            Edit StartPeriod Literal) >>= fun part =>
          set (⟨isFlag, keyToken, some (.equals, part), escape⟩ : StartPeriod))
        ⟨isFlag, keyToken, none, escape⟩ := rfl
    rw [Edit.apply, added, Edit.check_bind, Edit.edited]
    rcases Literal.setContent_cases .value escape [] value (.ofValue value) with
      ⟨error, failed⟩ | ⟨children, done, -, wellFormed⟩
    · rw [failed]
      exact .inl ⟨error, rfl⟩
    · rw [done]
      exact .inr ⟨.equals, _, rfl, .inl rfl, wellFormed⟩
  · have within : Edit.apply (KeyValue.setValue (some value))
        (⟨isFlag, keyToken, some (between, old), escape⟩ : StartPeriod) =
      Edit.apply (Edit.within old
        (fun part => (⟨isFlag, keyToken, some (between, part), escape⟩ : StartPeriod))
        (Literal.setContent .value escape [] false value))
        ⟨isFlag, keyToken, some (between, old), escape⟩ := rfl
    rw [within, Edit.apply_within]
    rcases Literal.setContent_cases .value escape [] value old with
      ⟨error, failed⟩ | ⟨children, done, -, wellFormed⟩
    · rw [failed]
      exact .inl ⟨error, rfl⟩
    · rw [done]
      exact .inr ⟨between, _, rfl, .inr ⟨old, rfl⟩, wellFormed⟩

/-- An edit keeps a flag well formed, whether it succeeds or fails. -/
theorem WellFormed.after_setValue (h : p.WellFormed e) (value : Option Text) :
    WellFormed e (Edit.apply (KeyValue.setValue value) p).result := by
  cases value with
  | none => exact ⟨h.escape, h.isFlag, h.key, nofun⟩
  | some value =>
    rcases setValue_cases value p with ⟨error, failed⟩ | ⟨between, part, done, origin, wellFormed⟩
    · rw [failed]
      exact h
    · rw [done]
      rw [h.escape] at wellFormed
      have isSeparator : between.WellFormed := by
        rcases origin with rfl | ⟨old, has⟩
        · trivial
        · exact (h.assigned between old has).1
      refine ⟨h.escape, h.isFlag, h.key, ?_⟩
      intro between' part' same
      cases same
      exact ⟨isSeparator, wellFormed⟩

/-- The flag after its value has been set to each of these or, for `none`, removed. Each of the
edits may fail. -/
def afterAll (values : List (Option Text)) (p : StartPeriod) : StartPeriod :=
  Edit.afterAll (values.map KeyValue.setValue) p

theorem WellFormed.afterAll (h : p.WellFormed e) (values : List (Option Text)) :
    (p.afterAll values).WellFormed e := by
  refine Edit.afterAll_induction ?_ h
  intro edit he p h
  obtain ⟨value, -, rfl⟩ := List.mem_map.mp he
  exact h.after_setValue value

/-- The ways to come by a flag: reading a text, and creating the flag where the default escape
character is in use. -/
inductive Obtained (e : Char) (p : StartPeriod) : Prop
  | read {text : Text} : parse e text = .ok p → Obtained e p
  | created {value : Text} : e = defaultEscape → create value = .ok p → Obtained e p

theorem Obtained.wellFormed (h : Obtained e p) : p.WellFormed e := by
  cases h with
  | read h => exact wellFormed_of_parse h
  | @created value default h =>
    subst default
    cases value with
    | nil => cases h
    | cons c value => exact wellFormed_of_parse h

/-- However its value has been set and removed, with success or without, a flag is read back with
the same tokens. -/
theorem reparses_after_values (he : IsEscape e) (h : Obtained e p) (values : List (Option Text)) :
    parse e (p.afterAll values).render = .ok (p.afterAll values) :=
  (h.wellFormed.afterAll values).parse_render he

/-- A flag with white space before its value takes a value in quotes and then an empty one; a flag
that is created loses its value and takes another, and in between refuses a quote that is not
closed. -/
theorem reparses_after_values_sample :
    (∃ p, parse '`' (flagMark ++ keyName ++ [' ', '3', 's']) = .ok p ∧
      (p.afterAll [some ['1', ' ', '2']]).render = "--start-period \"1 2\"".toList ∧
      (p.afterAll [some ['1', ' ', '2'], some []]).render = "--start-period \"\"".toList ∧
      parse '`' (p.afterAll [some ['1', ' ', '2'], some []]).render =
        .ok (p.afterAll [some ['1', ' ', '2'], some []])) ∧
    ∃ p, create ['3', 's'] = .ok p ∧
      (p.afterAll [none]).render = "--start-period".toList ∧
      (Edit.apply (KeyValue.setValue (some ['\'', 'a'])) (p.afterAll [none])).error ≠ none ∧
      (p.afterAll [none, some ['\'', 'a'], some ['5', 'm']]).render =
        "--start-period=5m".toList ∧
      parse '\\' (p.afterAll [none, some ['\'', 'a'], some ['5', 'm']]).render =
        .ok (p.afterAll [none, some ['\'', 'a'], some ['5', 'm']]) := by
  have ofRead : (parse '`' (flagMark ++ keyName ++ [' ', '3', 's'])).toOption.map (fun p =>
      ((p.afterAll [some ['1', ' ', '2']]).render,
        (p.afterAll [some ['1', ' ', '2'], some []]).render)) =
      some ("--start-period \"1 2\"".toList, "--start-period \"\"".toList) := by
    decide +kernel
  have ofCreated : (create ['3', 's']).toOption.map (fun p =>
      ((p.afterAll [none]).render,
        (Edit.apply (KeyValue.setValue (some ['\'', 'a'])) (p.afterAll [none])).error.isSome,
        (p.afterAll [none, some ['\'', 'a'], some ['5', 'm']]).render)) =
      some ("--start-period".toList, true, "--start-period=5m".toList) := by
    decide +kernel
  obtain ⟨p, hp, facts⟩ := exists_of_computed ofRead
  obtain ⟨inQuotes, emptied⟩ := Prod.mk.inj facts
  obtain ⟨q, hq, facts⟩ := exists_of_computed ofCreated
  obtain ⟨removed, facts⟩ := Prod.mk.inj facts
  obtain ⟨refused, replaced⟩ := Prod.mk.inj facts
  exact ⟨⟨p, hp, inQuotes, emptied, reparses_after_values (.inr rfl) (.read hp) _⟩,
    q, hq, removed, Option.isSome_iff_ne_none.mp refused, replaced,
    reparses_after_values (.inl rfl) (.created rfl hq) _⟩

end StartPeriod

end DockerfileSyntax
