import DockerfileSyntax.Proofs.Arg.Reread
import DockerfileSyntax.Proofs.Edits

/-!
# Setting the value of a declaration

A new value is read by itself, and so it is well formed; but then it stands before the text that was
there. The declaration is still read as it is, unless a comment stands right behind a value without
quotes, or on the next line behind a line continuation. There the value goes on with the text of the
comment.
-/

namespace DockerfileSyntax

open Grammar DockerfileSyntax.Parser

/-! ## What an edit stores -/

theorem Token.mem_renderAll {t : Token} {ts : List Token} (h : t ∈ ts) {c : Char}
    (hc : c ∈ t.render) : c ∈ Token.renderAll ts := by
  induction ts with
  | nil => cases h
  | cons u ts ih =>
    rw [Token.renderAll, List.mem_append]
    rcases List.mem_cons.mp h with rfl | h
    · exact .inl hc
    · exact .inr (ih h)

/-- What an edit may store as a value: a well-formed literal or the empty one, and without quotes
nothing that needs them. -/
structure Literal.Storable (e : Char) (l : Literal) : Prop where
  wellFormed : l = .empty ∨ l.WellFormed e .ends []
  noBlanks : l.quote = none → ∀ c ∈ Token.renderAll l.children, isBlank c = false

theorem Literal.storable_of_readContent {field : EditField} {e : Char} {l : Literal} {value : Text}
    {children : List Token}
    (h : Literal.readContent field e [] true (l.quoteWith value) value = .ok children) :
    Literal.Storable e ⟨l.quoteWith value, children⟩ := by
  obtain ⟨text, form⟩ := Literal.readContent_sound h
  refine ⟨?_, fun bare => ?_⟩
  · rcases form with ⟨-, bare, rfl⟩ | wellFormed
    · exact .inl (by rw [bare]; rfl)
    · exact .inr wellFormed
  · have noQuote : quoteFor value = none := (Option.or_eq_none_iff.mp bare).2
    have noBlank : value.any isBlank = false := by
      cases any : value.any isBlank with
      | false => rfl
      | true => simp [quoteFor, any] at noQuote
    rw [text]
    intro c hc
    simpa using List.any_eq_false.mp noBlank c hc

/-! ## Values before a trail -/

/-- The value has no quotes and goes on with the comment that the trail begins with. An empty value
cannot go on behind a line continuation, since none can begin there. -/
def Literal.takesComment (trail : List Trivia) : Literal → Bool
  | ⟨some _, _⟩ => false
  | ⟨none, []⟩ => startsComment trail
  | ⟨none, _ :: _⟩ => gluesComment trail

section Trails

variable {e : Char} {m : Text} {ts : List Trivia}

/-- Content without white space keeps its form before a trail. -/
theorem Trail.boundary (he : IsEscape e) (h : Trail e m ts) {children : List Token}
    (noBlanks : ∀ c ∈ Token.renderAll children, isBlank c = false) : Boundary children m := by
  refine ⟨fun c hc => ⟨?_, ?_⟩, fun _ text ht c hc => ?_⟩
  · rw [← Bool.not_eq_true]
    intro isName
    have notBlank := not_isBlank_of_isVariableNameChar isName
    refine h.head_ne ?_ ?_ ?_ ?_ hc
    · simp [isInlineBlank, notBlank]
    · cases inLine : isLineEnd c with
      | false => rfl
      | true =>
        rw [isBlank_of_isLineEnd inLine] at notBlank
        cases notBlank
    · rintro rfl
      exact absurd isName (by decide)
    · rintro rfl
      rw [he.not_isVariableNameChar] at isName
      cases isName
  · rintro rfl
    exact h.head_ne (by decide) (by decide) (by decide) he.ne_openingBrace.symm hc
  · have inText := Token.mem_renderAll ht (c := c) (by simpa using hc)
    simp [isInlineBlank, noBlanks c inText]

/-- A stored value is read back before a trail that it does not go on in. -/
theorem Literal.Storable.run_of_apart (he : IsEscape e) {l : Literal} (h : l.Storable e)
    (trail : Trail e m ts) (apart : l.takesComment ts = false) :
    ∃ o, run (optional (literal e .ends [])) (l.render ++ m) = some (o, m) ∧ o.getD .empty = l := by
  rcases h.wellFormed with rfl | wellFormed
  · exact ⟨none, run_optional_of_none (trail.run_literal he apart), rfl⟩
  · refine ⟨some l, run_optional_of_some ?_, rfl⟩
    refine run_literal_of_wellFormed he (by decide) wellFormed fun bare => ?_
    refine ⟨trail.boundary he (h.noBlanks bare), trail.run_unit he ?_⟩
    obtain ⟨quote, children⟩ := l
    obtain rfl : quote = none := bare
    cases children with
    | nil => exact absurd rfl wellFormed.2
    | cons t children => exact apart

theorem Trail.exists_of_startsComment (h : Trail e m ts) (comment : startsComment ts = true) :
    ∃ r, m = '#' :: r := by
  cases h with
  | opening h => exact h.exists_of_startsComment comment
  | broken _ _ => cases comment

/-- A comment is content like any other text. -/
theorem run_content_comment (he : IsEscape e) (r : Text) :
    ∃ children r' t, run (content (.bare e .ends [])) ('#' :: r) = some (children, r') ∧
      Token.valueAll children = '#' :: t := by
  have first : run (unit (content (.word e)) (.bare e .ends [])) ('#' :: r) =
      some ([.string ['#']], r) := run_unit_comment he [] (by simp) r
  obtain ⟨others, r', ho⟩ :=
    exists_run_many (laterUnit (content (.word e)) (.bare e .ends [])) r
  refine
    ⟨mergeStrings ([.string ['#']] ++ others.flatten), r', Token.valueAll others.flatten, ?_, ?_⟩
  · rw [content_eq]
    refine run_bind_eq_some.mpr
      ⟨_, r, run_firstUnit_eq_some.mpr ⟨run_continuation_comment he r, first⟩, ?_⟩
    exact run_bind_eq_some.mpr ⟨others, r', ho, rfl⟩
  · simp

/-- Content that is followed by a comment, if only on the next line, goes on with it. -/
theorem run_content_of_gluesComment (he : IsEscape e) {children : List Token}
    (isWord : Word (.bare e .ends []) children) (nonempty : children ≠ [])
    (noBlanks : ∀ c ∈ Token.renderAll children, isBlank c = false) (trail : Trail e m ts)
    (glued : gluesComment ts = true) :
    ∃ children' r' t, run (content (.bare e .ends [])) (Token.renderAll children ++ m) =
      some (children', r') ∧ Token.valueAll children' = Token.valueAll children ++ '#' :: t := by
  have he' : IsEscape (ContentRules.bare e .ends []).escape := he
  obtain ⟨breaks, r, hu⟩ : ∃ (breaks : List Continuation) (r : Text),
      run (unit (content (.word e)) (.bare e .ends [])) m =
        some (breaks.map Continuation.toToken ++ [.string ['#']], r) :=
    trail.exists_run_unit he glued
  have shorter : r.length < m.length := by
    have text : m = _ ++ r := (lossless_unit (lossless_content _) _).append_eq hu
    rw [text]
    simp only [List.length_append, Token.renderAll_append, Token.renderAll, Token.render,
      List.length_cons, List.length_nil]
    omega
  obtain ⟨others, r', ho⟩ := exists_run_many (unit (content (.word e)) (.bare e .ends [])) r
  have more := run_many_of_steps (.cons hu shorter (.nil r)) ho
  obtain ⟨items, merged, read⟩ := run_content_of_units he' (by simp [ContentRules.bare]) isWord
    nonempty (isWord.readsReferences he') (trail.boundary he noBlanks) more
  refine ⟨_, r', Token.valueAll others.flatten, read, ?_⟩
  -- line continuations have no value, so the first character that is added is that of the comment
  have noValue : Token.valueAll (breaks.map Continuation.toToken) = [] := by
    simpa using valueAll_breaks breaks []
  rw [← merged]
  simp [noValue]

/-- A stored value goes on with the comment that it takes. -/
theorem Literal.Storable.run_of_takesComment (he : IsEscape e) {l : Literal} (h : l.Storable e)
    (trail : Trail e m ts) (takes : l.takesComment ts = true) :
    ∃ l' r, run (literal e .ends []) (l.render ++ m) = some (l', r) ∧ l'.value ≠ l.value := by
  obtain ⟨quote, children⟩ := l
  cases quote with
  | some quote => cases takes
  | none =>
    have text : Literal.render ⟨none, children⟩ = Token.renderAll children := by
      simp [Literal.render, Literal.toToken, Quote.mark]
    -- the text is content without quotes, and it is longer than the value
    have goesOn : (∀ quote : Quote, (Token.renderAll children ++ m).head? ≠ some quote.char) ∧
        ∃ children' r' t,
          run (content (.bare e .ends [])) (Token.renderAll children ++ m) = some (children', r') ∧
            Token.valueAll children' = Token.valueAll children ++ '#' :: t := by
      rcases h.wellFormed with empty | ⟨isWord, nonempty⟩
      · obtain rfl : children = [] := congrArg Literal.children empty
        obtain ⟨r, rfl⟩ := trail.exists_of_startsComment takes
        refine ⟨fun quote hc => ?_, run_content_comment he r⟩
        cases quote <;> exact absurd (Option.some.inj hc) (by decide)
      · obtain ⟨child, children, rfl⟩ := List.exists_cons_of_ne_nil nonempty
        exact ⟨isWord.head_ne_quote he nonempty m,
          run_content_of_gluesComment he isWord nonempty (h.noBlanks rfl) trail takes⟩
    obtain ⟨notQuote, children', r, t, read, value⟩ := goesOn
    refine ⟨⟨none, children'⟩, r, ?_, ?_⟩
    · rw [text]
      exact run_bind_eq_some.mpr
        ⟨(none, children'), r, run_inOptionalQuotes_bare notQuote read, rfl⟩
    · show Token.valueAll children' ≠ Token.valueAll children
      rw [value]
      simp

end Trails

namespace Arg

/-- A value is stored in the quotes that the old one has or that it needs itself. Nothing else is
changed, and nothing at all if the value is refused. -/
theorem apply_setArgValue (value : Text) (a : Arg) :
    Edit.apply (setArgValue (some value)) a =
      match Literal.readContent .argValue a.escape [] true
          ((a.value.getD .empty).quoteWith value) value with
      | .ok children =>
        ⟨{ a with value := some ⟨(a.value.getD .empty).quoteWith value, children⟩ }, none⟩
      | .error error => ⟨a, some error⟩ := by
  obtain ⟨heading, name, old, trail, e⟩ := a
  have setting := Literal.apply_setContent .argValue e [] true value (old.getD .empty)
  cases old with
  | some l =>
    have within : Edit.apply (setArgValue (some value)) ⟨heading, name, some l, trail, e⟩ =
        Edit.apply (Edit.within l (fun l => ⟨heading, name, some l, trail, e⟩)
          (Literal.setContent .argValue e [] true value)) ⟨heading, name, some l, trail, e⟩ := rfl
    rw [within, Edit.apply_within]
    simp only [Option.getD_some] at setting ⊢
    rw [setting]
    cases Literal.readContent .argValue e [] true (l.quoteWith value) value <;> rfl
  | none =>
    have added : setArgValue (some value) ⟨heading, name, none, trail, e⟩ =
        ((Edit.edited (Literal.setContent .argValue e [] true value) .empty : Edit Arg Literal) >>=
          fun l => set (⟨heading, name, some l, trail, e⟩ : Arg)) ⟨heading, name, none, trail, e⟩ :=
      rfl
    simp only [Option.getD_none] at setting ⊢
    rw [Edit.apply, added, Edit.check_bind, Edit.edited, setting]
    cases Literal.readContent .argValue e [] true (Literal.empty.quoteWith value) value <;> rfl

/-- The value goes on with a comment behind it. -/
def takesComment (a : Arg) : Bool := a.value.any (Literal.takesComment a.trail)

/-- The number of references in the value; none without a value. -/
def referenceCount (a : Arg) : Option Nat := a.value.map fun l => l.references.length

/-- The value after expansion, and the error that ended the expansion, if one did. -/
def resolution (a : Arg) (env : Environment) : Option Text × Option Error :=
  let after := Edit.apply (resolve env) a
  (after.result.argValue, after.error)

/-- Where two declarations cannot be told apart by what they declare, by their comments or by the
references in their values, and have the same value in every environment. -/
structure Agrees (b a : Arg) : Prop extends b.ReadsLike a where
  referenceCount : b.referenceCount = a.referenceCount
  resolution : ∀ env, b.resolution env = a.resolution env

theorem agrees_refl (a : Arg) : a.Agrees a := ⟨readsLike_refl a, rfl, fun _ => rfl⟩

section Values

variable {e : Char} {a b : Arg} {l : Literal}

/-- What is read where the value stands is a literal, or the empty one. -/
theorem KeepsValue.readable (h : a.KeepsValue e) (value : a.value = some l) :
    l.Readable e [] true := by
  rw [KeepsValue, value] at h
  rcases value_of_run_assignment h with isEmpty | wellFormed
  · exact .inl ⟨rfl, isEmpty⟩
  · exact .inr wellFormed

/-- A value that an edit has stored is kept if it does not go on with a comment. -/
theorem Sound.keepsValue_of_storable (he : IsEscape e) (h : a.Sound e) (value : a.value = some l)
    (storable : l.Storable e) (apart : a.takesComment = false) : a.KeepsValue e := by
  have trail := trail_of_run he h.trail
  have apart' : l.takesComment a.trail = false := by
    rwa [takesComment, value, Option.any_some] at apart
  obtain ⟨o, read, rfl⟩ := storable.run_of_apart he trail apart'
  rw [KeepsValue, tail, value]
  exact run_assignment_of_equals e read

/-- A declaration whose value goes on with a comment is read back with another value, if at all. -/
theorem Sound.argValue_ne (he : IsEscape e) (h : a.Sound e) (value : a.value = some l)
    (storable : l.Storable e) (takes : a.takesComment = true)
    (hb : parse e a.render = .ok b) : b.argValue ≠ a.argValue := by
  have trail := trail_of_run he h.trail
  have takes' : l.takesComment a.trail = true := by
    rwa [takesComment, value, Option.any_some] at takes
  obtain ⟨l', r, read, differs⟩ := storable.run_of_takesComment he trail takes'
  obtain ⟨s, hn, s', hv⟩ := h.of_parse_render he hb
  -- heading and name are read as they were, so the difference is in the value
  rw [run_argName_of_isName he h.name (endsBefore_of_value he value)] at hn
  obtain ⟨-, rfl⟩ := Prod.mk.inj (Option.some.inj hn)
  rw [tail, value, assignedText, List.cons_append,
    run_assignment_of_equals e (run_optional_of_some read)] at hv
  obtain ⟨stored, -⟩ := Prod.mk.inj (Option.some.inj hv)
  rw [argValue, argValue, ← stored, value]
  intro same
  exact differs (Option.some.inj same)

end Values

/-- An accepted value leaves a sound declaration sound, with a value that may be stored. -/
theorem Sound.after_setArgValue {e : Char} {value : Text} {a a' : Arg} (h : a.Sound e)
    (accepted : Edit.apply (setArgValue (some value)) a = ⟨a', none⟩) :
    a'.Sound e ∧ ∃ l, a'.value = some l ∧ l.Storable e := by
  rw [apply_setArgValue] at accepted
  cases hc : Literal.readContent .argValue a.escape [] true
      ((a.value.getD .empty).quoteWith value) value with
  | error error =>
    rw [hc] at accepted
    cases congrArg Progress.error accepted
  | ok children =>
    rw [hc] at accepted
    obtain rfl := congrArg Progress.result accepted
    rw [h.escape] at hc
    exact ⟨⟨h.escape, h.heading, h.name, h.trail⟩, _, rfl, Literal.storable_of_readContent hc⟩

/-- Once a value has been accepted, a declaration that was read is read again with the same name,
value, comments and references, and with the same value in every environment, if and only if its
value does not go on with a comment. -/
theorem reparses_after_value_iff {e : Char} (he : IsEscape e) {text value : Text} {a a' : Arg}
    (h : parse e text = .ok a)
    (accepted : Edit.apply (setArgValue (some value)) a = ⟨a', none⟩) :
    (∃ b, parse e a'.render = .ok b ∧ b.Agrees a') ↔ a'.takesComment = false := by
  obtain ⟨sound, l, stored, storable⟩ := (sound_of_parse he h).1.after_setArgValue accepted
  constructor
  · rintro ⟨b, hb, same⟩
    cases takes : a'.takesComment with
    | false => rfl
    | true => exact absurd same.argValue (sound.argValue_ne he stored storable takes hb)
  · intro apart
    have value := sound.keepsValue_of_storable he stored storable apart
    have again := sound.parse_render he value (endsBefore_of_value he stored)
    exact ⟨a', again, agrees_refl a'⟩

/-- `ARG x=1 #c` becomes `ARG x="a $b" #c` and is read as that. -/
theorem reparses_after_value_sample :
    ∃ a a', parse '\\' ['A', 'R', 'G', ' ', 'x', '=', '1', ' ', '#', 'c'] = .ok a ∧
      Edit.apply (setArgValue (some ['a', ' ', '$', 'b'])) a = ⟨a', none⟩ ∧
      a'.render = "ARG x=\"a $b\" #c".toList ∧
      ∃ b, parse '\\' a'.render = .ok b ∧ b.Agrees a' := by
  obtain ⟨a, h⟩ := exists_of_isOk
    (x := parse '\\' ['A', 'R', 'G', ' ', 'x', '=', '1', ' ', '#', 'c']) (by decide +kernel)
  obtain ⟨a', accepted, facts⟩ := Edit.exists_accepted (g := fun a => (a.takesComment, a.render))
    (b := (false, "ARG x=\"a $b\" #c".toList)) (setArgValue (some ['a', ' ', '$', 'b'])) id h
    (by decide +kernel)
  obtain ⟨apart, text⟩ := Prod.mk.inj facts
  exact ⟨a, a', h, accepted, text, (reparses_after_value_iff (.inl rfl) h accepted).mpr apart⟩

/-- `ARG x#c` has a comment right behind the name. With the value `v` it is `ARG x=v#c`, where the
value is `v#c` and there is no comment. -/
theorem added_value_takes_comment :
    ∃ a a', parse '\\' ['A', 'R', 'G', ' ', 'x', '#', 'c'] = .ok a ∧
      Edit.apply (setArgValue (some ['v'])) a = ⟨a', none⟩ ∧
      a'.render = "ARG x=v#c".toList ∧ a'.argValue = some ['v'] ∧ a'.comments = [['#', 'c']] ∧
      (∃ b, parse '\\' a'.render = .ok b ∧ b.argValue = some ['v', '#', 'c'] ∧ b.comments = []) ∧
      ¬ ∃ b, parse '\\' a'.render = .ok b ∧ b.Agrees a' := by
  obtain ⟨a, h⟩ := exists_of_isOk (x := parse '\\' ['A', 'R', 'G', ' ', 'x', '#', 'c'])
    (by decide +kernel)
  obtain ⟨a', accepted, facts⟩ := Edit.exists_accepted
    (g := fun a => (a.render, a.argValue, a.comments))
    (b := ("ARG x=v#c".toList, some ['v'], [['#', 'c']])) (setArgValue (some ['v'])) id h
    (by decide +kernel)
  obtain ⟨text, facts⟩ := Prod.mk.inj facts
  obtain ⟨value, comments⟩ := Prod.mk.inj facts
  have reread : (parse '\\' "ARG x=v#c".toList).toOption.map (fun b => (b.argValue, b.comments)) =
      some (some ['v', '#', 'c'], []) := by
    decide +kernel
  obtain ⟨b, read, facts⟩ := exists_of_computed reread
  obtain ⟨longer, none⟩ := Prod.mk.inj facts
  rw [← text] at read
  refine ⟨a, a', h, accepted, text, value, comments, ⟨b, read, longer, none⟩, ?_⟩
  rintro ⟨b', read', same⟩
  obtain rfl := Except.ok.inj (read.symm.trans read')
  have differs := same.argValue
  rw [longer, value] at differs
  cases differs

end Arg

end DockerfileSyntax
