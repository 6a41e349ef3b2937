import DockerfileSyntax.Proofs.Owner.Reread

/-!
# Creating an owner from names

The names are put into one text, each in double quotes if it holds white space, and the owner is
what that text reads as. It has the given names if and only if each of them can be set as a part by
itself (`Owner.isPartValue`): a name that holds a colon, or that quotes wrap, is read as something
else.
-/

namespace DockerfileSyntax

open Grammar DockerfileSyntax.Parser

namespace Owner

/-- The value can be set on a part that has no quotes. -/
def isPartValue (value : Text) : Bool :=
  (Literal.readContent .user defaultEscape [':'] false (quoteFor value) value).toOption.isSome

theorem isPartValue_eq (value : Text) :
    isPartValue value = Literal.isSettable .user defaultEscape [':'] false value := rfl

/-- A part is not empty, and so what is read for it is well formed. -/
theorem readable_part_iff {l : Literal} :
    l.Readable defaultEscape [':'] false ↔ l.WellFormed defaultEscape .ends [':'] := by
  simp [Literal.Readable]

/-! ## The literal of a name -/

/-- A name that is read back from its text is one that can be set. -/
theorem isPartValue_of_render {l : Literal} (h : l.WellFormed defaultEscape .ends [':'])
    (text : l.render = canonicalText l.value) : isPartValue l.value = true := by
  rw [isPartValue_eq]
  exact (readable_part_iff.mpr h).isSettable isEscape_default text

/-- The literal of a name that can be set, with the text of the name. -/
theorem exists_literal_of_isPartValue {value : Text} (h : isPartValue value = true)
    (unbroken : ¬ HoldsBreak defaultEscape value) :
    ∃ l : Literal, l.WellFormed defaultEscape .ends [':'] ∧ l.render = canonicalText value ∧
      l.value = value := by
  have he := isEscape_default
  obtain ⟨children, read, text, same⟩ := Literal.exists_of_isSettable he h unbroken
  exact ⟨_, readable_part_iff.mp ((Literal.readContent_eq_ok_iff he).mp read).1, text, same⟩

/-- Where the text of a name stands before a colon, a literal with this name that is read there ends
at the colon. -/
theorem render_eq_canonicalText {l : Literal} (h : l.WellFormed defaultEscape .ends [':'])
    (nonempty : l.value ≠ []) {r s : Text}
    (text : l.render ++ r = canonicalText l.value ++ ':' :: s)
    (unbroken : ¬ HoldsBreak defaultEscape (l.render ++ r)) : l.render = canonicalText l.value := by
  have he := isEscape_default
  obtain ⟨own, children⟩ := l
  have noLineEnd : '\n' ∉ Token.renderAll children := fun newLine => by
    refine unbroken ((h.holdsBreak he newLine).mono ?_)
    rw [Literal.render_eq]
    exact ⟨Quote.mark own, Quote.mark own ++ r, by simp⟩
  have value := (h.value_eq_iff he).mpr noLineEnd
  rw [value] at nonempty text ⊢
  have content : children ≠ [] := by
    rintro rfl
    exact nonempty rfl
  rw [Literal.render_eq] at text ⊢
  rcases own with _ | quote
  · rcases canonicalText_cases (Token.renderAll children) with ⟨-, same⟩ | ⟨-, same⟩
    · rw [same]
      simp [Quote.mark]
    · -- the text begins with a quote, and so does the literal
      rw [same] at text
      have head : (Token.renderAll children ++ r).head? = some Quote.double.char := by
        have begins := congrArg List.head? text
        simpa [Quote.mark] using begins
      exact absurd head (h.1.head_ne_quote he h.2 r .double)
  · rcases canonicalText_cases (Token.renderAll children) with ⟨-, same⟩ | ⟨-, same⟩
    · -- the content begins with the quote around it
      rw [same] at text
      have head : (Token.renderAll children ++ ':' :: s).head? = some quote.char := by
        rw [← text]
        rfl
      exact absurd head (Word.head_ne_of_excluded h content (by simp [ContentRules.quoted])
        (he.ne_quote quote).symm quote.char_ne_dollar _)
    · rw [same] at text ⊢
      have head : quote.char = Quote.double.char := (List.cons.inj text).1
      cases quote with
      | single => exact absurd head (by decide)
      | double => simp [Quote.mark]

/-! ## Creating -/

/-- The group that is given: an empty one counts as none. -/
def givenGroup (group : Option Text) : Option Text := group.filter fun name => !name.isEmpty

theorem create_eq_ok {user : Text} {group : Option Text} {o : Owner} :
    create user group = .ok o ↔ user ≠ [] ∧
      parse defaultEscape (canonicalText user ++
        (givenGroup group).elim [] fun name => ':' :: canonicalText name) = .ok o := by
  cases user with
  | nil =>
    constructor
    · intro h
      cases h
    · rintro ⟨nonempty, -⟩
      exact absurd rfl nonempty
  | cons c user =>
    have read : create (c :: user) group = parse defaultEscape (canonicalText (c :: user) ++
        (givenGroup group).elim [] fun name => ':' :: canonicalText name) := by
      rcases group with _ | _ | ⟨d, name⟩ <;> rfl
    rw [read]
    simp

/-- No line continuation stands in the text that two names without any make up. -/
theorem unbroken_text {user group : Text} (hu : ¬ HoldsBreak defaultEscape user)
    (hg : ¬ HoldsBreak defaultEscape group) :
    ¬ HoldsBreak defaultEscape (canonicalText user ++ ':' :: canonicalText group) := by
  intro holds
  rcases holds.of_append_cons (by decide) (by decide) (by decide) with holds | holds
  · exact hu (holdsBreak_of_canonicalText isEscape_default holds)
  · exact hg (holdsBreak_of_canonicalText isEscape_default holds)

theorem eq_nil_of_unbroken {e : Char} {breaks : List Continuation} (all : ∀ k ∈ breaks, k.IsBreak e)
    {s r : Text} (unbroken : ¬ HoldsBreak e (s ++ (breaksText breaks ++ r))) : breaks = [] := by
  cases breaks with
  | nil => rfl
  | cons k breaks =>
    refine absurd ⟨k, all k List.mem_cons_self, s, breaksText breaks ++ r, ?_⟩ unbroken
    simp

/-- Names that an owner has which was created from them can be set as parts. -/
theorem isPartValue_of_create {user : Text} {group : Option Text} {o : Owner}
    (hu : ¬ HoldsBreak defaultEscape user) (hg : ∀ name ∈ group, ¬ HoldsBreak defaultEscape name)
    (h : create user group = .ok o) (userName : o.userName = user)
    (groupName : o.groupName = givenGroup group) :
    isPartValue user = true ∧ ∀ name ∈ givenGroup group, isPartValue name = true := by
  obtain ⟨nonempty, h⟩ := create_eq_ok.mp h
  obtain ⟨text, wellFormed⟩ := (parse_eq_ok_iff isEscape_default).mp h
  obtain ⟨literal, before, found, escape⟩ := o
  obtain rfl : literal.value = user := userName
  rw [render_eq] at text
  rcases given : givenGroup group with _ | name
  · rw [given] at text groupName
    obtain rfl : found = none := by simpa [Owner.groupName, groupLiteral] using groupName
    obtain rfl : before = [] := wellFormed.alone rfl
    have text : literal.render = canonicalText literal.value := by simpa [groupText] using text
    exact ⟨isPartValue_of_render wellFormed.user text, by simp⟩
  · rw [given] at text groupName
    obtain ⟨after, part, rfl, rfl⟩ :
        ∃ after part, found = some (after, part) ∧ part.value = name := by
      rcases found with _ | ⟨after, part⟩
      · cases groupName
      · exact ⟨after, part, rfl, Option.some.inj groupName⟩
    have hg : ¬ HoldsBreak defaultEscape part.value := by
      refine hg _ ?_
      rw [givenGroup, Option.filter_eq_some_iff] at given
      exact given.1
    have text : literal.render ++ (breaksText before ++ ':' :: (breaksText after ++ part.render)) =
      canonicalText literal.value ++ ':' :: canonicalText part.value := text
    have unbroken := unbroken_text hu hg
    rw [← text] at unbroken
    have userText := render_eq_canonicalText wellFormed.user nonempty text unbroken
    -- no line continuation stands on either side of the colon, and so the group is all behind it
    obtain rfl := eq_nil_of_unbroken wellFormed.before unbroken
    obtain ⟨isBreak, isGroup⟩ := wellFormed.group after part rfl
    obtain rfl := eq_nil_of_unbroken (s := literal.render ++ [':']) isBreak
      (by simpa using unbroken)
    rw [userText] at text
    have groupText : part.render = canonicalText part.value := by simpa using text
    refine ⟨isPartValue_of_render wellFormed.user userText, ?_⟩
    intro name hn
    cases hn
    exact isPartValue_of_render isGroup groupText

/-- From names that can be set as parts, an owner with these names is created. -/
theorem exists_create {user : Text} {group : Option Text}
    (hu : ¬ HoldsBreak defaultEscape user) (hg : ∀ name ∈ group, ¬ HoldsBreak defaultEscape name)
    (isUser : isPartValue user = true)
    (isGroup : ∀ name ∈ givenGroup group, isPartValue name = true) :
    ∃ o, create user group = .ok o ∧ o.userName = user ∧ o.groupName = givenGroup group := by
  have nonempty : user ≠ [] := by
    rintro rfl
    cases isUser
  obtain ⟨literal, userForm, userText, userValue⟩ := exists_literal_of_isPartValue isUser hu
  rcases given : givenGroup group with _ | name
  · have wellFormed : WellFormed defaultEscape ⟨literal, [], none, defaultEscape⟩ :=
      ⟨rfl, userForm, by simp, fun _ => rfl, nofun⟩
    have read := wellFormed.parse_render isEscape_default
    rw [render_eq] at read
    refine ⟨⟨literal, [], none, defaultEscape⟩, create_eq_ok.mpr ⟨nonempty, ?_⟩, userValue, rfl⟩
    rw [given, ← userText]
    exact read
  · have hg : ¬ HoldsBreak defaultEscape name := by
      refine hg _ ?_
      rw [givenGroup, Option.filter_eq_some_iff] at given
      exact given.1
    obtain ⟨part, groupForm, groupText, groupValue⟩ :=
      exists_literal_of_isPartValue (isGroup name given) hg
    have wellFormed : WellFormed defaultEscape ⟨literal, [], some ([], part), defaultEscape⟩ := by
      refine ⟨rfl, userForm, by simp, nofun, ?_⟩
      intro after group same
      cases same
      exact ⟨by simp, groupForm⟩
    have read := wellFormed.parse_render isEscape_default
    rw [render_eq] at read
    refine ⟨⟨literal, [], some ([], part), defaultEscape⟩, create_eq_ok.mpr ⟨nonempty, ?_⟩,
      userValue, congrArg some groupValue⟩
    rw [given, ← userText]
    show parse defaultEscape (literal.render ++ ':' :: canonicalText name) = _
    rw [← groupText]
    exact read

/-- Where no line continuation stands in the given names, an owner with these names is created from
them if and only if each of them can be set as a part by itself. -/
theorem create_names_iff {user : Text} {group : Option Text}
    (hu : ¬ HoldsBreak defaultEscape user) (hg : ∀ name ∈ group, ¬ HoldsBreak defaultEscape name) :
    (∃ o, create user group = .ok o ∧ o.userName = user ∧ o.groupName = givenGroup group) ↔
      isPartValue user = true ∧ ∀ name ∈ givenGroup group, isPartValue name = true := by
  constructor
  · rintro ⟨o, h, userName, groupName⟩
    exact isPartValue_of_create hu hg h userName groupName
  · rintro ⟨isUser, isGroup⟩
    exact exists_create hu hg isUser isGroup

/-- The user `a b` and the group `$g` are read back. -/
theorem create_names_iff_sample :
    ∃ o, create ['a', ' ', 'b'] (some ['$', 'g']) = .ok o ∧ o.userName = ['a', ' ', 'b'] ∧
      o.groupName = some ['$', 'g'] := by
  have names : ∀ name ∈ some ['$', 'g'], name = ['$', 'g'] := fun name h => (Option.some.inj h).symm
  refine (create_names_iff (mt HoldsBreak.newLine_mem (by decide)) ?_).mpr ⟨by decide +kernel, ?_⟩
  · intro name h
    rw [names name h]
    exact mt HoldsBreak.newLine_mem (by decide)
  · intro name h
    rw [names name h]
    decide +kernel

/-- The user `a:b` without a group is read back as the user `a` with the group `b`. -/
theorem created_name_splits :
    ¬ HoldsBreak defaultEscape ['a', ':', 'b'] ∧
      ∃ o, create ['a', ':', 'b'] none = .ok o ∧ o.userName = ['a'] ∧ o.groupName = some ['b'] := by
  refine ⟨mt HoldsBreak.newLine_mem (by decide), ?_⟩
  have names : (create ['a', ':', 'b'] none).toOption.map (fun o => (o.userName, o.groupName)) =
      some (['a'], some ['b']) := by
    decide +kernel
  obtain ⟨o, h, names⟩ := exists_of_computed names
  obtain ⟨userName, groupName⟩ := Prod.mk.inj names
  exact ⟨o, h, userName, groupName⟩

end Owner

end DockerfileSyntax
