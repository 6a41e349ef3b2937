import DockerfileSyntax.Proofs.Owner.Edits

/-!
# Replacing the literals of an owner

A literal that is made by hand is one string in quotes or without. An owner takes it if its text
reads as a part, but keeps the literal itself and not what the text reads as. The two have the same
value if and only if the text stands for itself (`Literal.IsVerbatim`): quotes in it that wrap all
of it are not part of the value that is read, and neither is a line continuation.
-/

namespace DockerfileSyntax

open Grammar DockerfileSyntax.Parser

namespace Literal

/-- The literals that are made without reading a text, in any quote. -/
inductive Constructed : Literal → Prop
  | new (value : Text) : Constructed (.new value)
  | quoted (value : Text) (quote : Quote) : Constructed (.quoted value quote)
  | ofValue (value : Text) : Constructed (.ofValue value)
  | empty : Constructed .empty
  | withQuote {l : Literal} (quote : Option Quote) : Constructed l → Constructed { l with quote }

/-- The content of the literal stands for itself: no line ends in it, and if it has no quotes around
it, then it does not begin with one. -/
def IsVerbatim (l : Literal) : Prop :=
  '\n' ∉ Token.renderAll l.children ∧
    (l.quote = none → ∀ quote : Quote, (Token.renderAll l.children).head? ≠ some quote.char)

theorem Constructed.value_eq {l : Literal} (h : l.Constructed) :
    l.value = Token.renderAll l.children := by
  show Token.valueAll l.children = Token.renderAll l.children
  induction h with
  | new value => simp [Literal.new]
  | quoted value quote => simp [Literal.quoted, Literal.new]
  | ofValue value => simp [Literal.ofValue, Literal.new]
  | empty => rfl
  | withQuote quote _ ih => exact ih

/-- The literal that the text of another one reads as has the same value if and only if that one
stands for itself. -/
theorem WellFormed.value_eq_iff_isVerbatim {e : Char} {spacing : Spacing} {excluded : List Char}
    {l part : Literal} (he : IsEscape e) (h : l.WellFormed e spacing excluded)
    (same : l.render = part.render) (verbatim : part.value = Token.renderAll part.children) :
    l.value = part.value ↔ part.IsVerbatim := by
  rw [verbatim]
  cases hq : part.quote with
  | some quote =>
    have quoted : l.render = quote.char :: (Token.renderAll part.children ++ [quote.char]) := by
      obtain ⟨_, children⟩ := part
      obtain rfl := hq
      rw [same, render_eq]
      simp [Quote.mark]
    obtain ⟨-, text⟩ := h.eq_of_render_quoted he quoted
    rw [← text, h.value_eq_iff he, text, IsVerbatim, hq]
    simp
  | none =>
    rw [render_of_bare hq] at same
    constructor
    · intro value
      -- a value as long as the text leaves no room for quotes
      have bare : l.quote = none := quote_eq_none (by rw [same, value])
      rw [← same, render_of_bare bare, h.value_eq_iff he, ← render_of_bare bare, same] at value
      refine ⟨value, fun _ quote head => ?_⟩
      rw [← same, ← h.quote_iff he, bare] at head
      cases head
    · rintro ⟨noLineEnd, noQuote⟩
      have bare : l.quote = none := by
        cases own : l.quote with
        | none => rfl
        | some quote =>
          rw [h.quote_iff he, same] at own
          exact absurd own (noQuote hq quote)
      rw [render_of_bare bare] at same
      rw [← same, h.value_eq_iff he, same]
      exact noLineEnd

end Literal

namespace Owner

variable {e : Char} {o o' : Owner}

theorem render_withLiteral {l part : Literal} (role : Role) (same : l.render = part.render) :
    (role.withLiteral o l).render = (role.withLiteral o part).render := by
  obtain ⟨user, breaks, group, escape⟩ := o
  rw [render_eq, render_eq]
  cases role with
  | user => exact congrArg (· ++ _) same
  | group =>
    rcases group with _ | ⟨after, old⟩ <;> simp [Role.withLiteral, withGroup, groupText, same]

/-- Two owners that differ in one part only have the same names if that part has the same value. -/
theorem names_withLiteral_iff (role : Role) (l part : Literal) :
    ((role.withLiteral o l).userName = (role.withLiteral o part).userName ∧
      (role.withLiteral o l).groupName = (role.withLiteral o part).groupName) ↔
      l.value = part.value := by
  obtain ⟨user, breaks, group, escape⟩ := o
  cases role with
  | user => simp [Role.withLiteral, withUser, userName, groupName, groupLiteral]
  | group =>
    rcases group with _ | ⟨after, old⟩ <;>
      simp [Role.withLiteral, withGroup, userName, groupName, groupLiteral]

/-- An owner that has taken a literal is read back, and with the same names if and only if the
literal stands for itself. -/
theorem WellFormed.exists_reread (he : IsEscape e) (h : o.WellFormed e) {role : Role}
    {part : Literal} (constructed : part.Constructed)
    (accepted : Edit.apply (role.setLiteral part) o = ⟨o', none⟩) :
    ∃ b, parse e o'.render = .ok b ∧
      ((b.userName = o'.userName ∧ b.groupName = o'.groupName) ↔ part.IsVerbatim) := by
  rw [apply_setLiteral] at accepted
  cases check : o.checkPart role.field part with
  | error error =>
    rw [check] at accepted
    cases accepted
  | ok u =>
    rw [check] at accepted
    cases accepted
    obtain ⟨-, l, read⟩ := checkPart_eq_ok.mp check
    rw [h.escape] at read
    obtain ⟨same, wellFormed⟩ := (complete_literal_eq_ok he (by decide)).mp read
    have again := (h.withLiteral role wellFormed).parse_render he
    rw [render_withLiteral role same] at again
    refine ⟨_, again, (names_withLiteral_iff role l part).trans ?_⟩
    exact wellFormed.value_eq_iff_isVerbatim he same constructed.value_eq

/-- Once an owner that was read has taken a literal that was made by hand, it is read again, and
with the same user and group if and only if the content of the literal stands for itself. -/
theorem reparses_after_literal_iff (he : IsEscape e) {text : Text} (h : parse e text = .ok o)
    {role : Role} {part : Literal} (constructed : part.Constructed)
    (accepted : Edit.apply (role.setLiteral part) o = ⟨o', none⟩) :
    ∃ b, parse e o'.render = .ok b ∧
      ((b.userName = o'.userName ∧ b.groupName = o'.groupName) ↔ part.IsVerbatim) :=
  (wellFormed_of_parse h).exists_reread he constructed accepted

/-- `u` takes the group `"a:b"`, and it is read with that group. -/
theorem reparses_after_literal_sample :
    ∃ o o', parse '`' ['u'] = .ok o ∧
      Edit.apply (Role.setLiteral .group (.quoted ['a', ':', 'b'] .double)) o = ⟨o', none⟩ ∧
      o'.render = "u:\"a:b\"".toList ∧ o'.groupName = some ['a', ':', 'b'] ∧
      ∃ b, parse '`' o'.render = .ok b ∧
        b.userName = o'.userName ∧ b.groupName = o'.groupName := by
  obtain ⟨o, h⟩ := exists_of_isOk (x := parse '`' ['u']) (by decide +kernel)
  obtain ⟨o', accepted, facts⟩ := Edit.exists_accepted (g := fun o => (o.render, o.groupName))
    (b := ("u:\"a:b\"".toList, some ['a', ':', 'b']))
    (Role.setLiteral .group (.quoted ['a', ':', 'b'] .double)) id h (by decide +kernel)
  obtain ⟨text, group⟩ := Prod.mk.inj facts
  obtain ⟨b, hb, same⟩ :=
    reparses_after_literal_iff (.inr rfl) h (.quoted ['a', ':', 'b'] .double) accepted
  exact ⟨o, o', h, accepted, text, group, b, hb, same.mpr ⟨by decide, nofun⟩⟩

/-- The literal without quotes whose text is `'a'` is taken for the user of `u`, which is then
`'a'` with its quotes; but the owner is read with the user `a`. -/
theorem literal_in_quotes_reread :
    ∃ o o', parse '\\' ['u'] = .ok o ∧
      Edit.apply (Role.setLiteral .user (.new ['\'', 'a', '\''])) o = ⟨o', none⟩ ∧
      o'.render = ['\'', 'a', '\''] ∧ o'.userName = ['\'', 'a', '\''] ∧
      (∃ b, parse '\\' o'.render = .ok b ∧ b.userName = ['a']) ∧
      ¬ ∃ b, parse '\\' o'.render = .ok b ∧
        b.userName = o'.userName ∧ b.groupName = o'.groupName := by
  obtain ⟨o, h⟩ := exists_of_isOk (x := parse '\\' ['u']) (by decide +kernel)
  obtain ⟨o', accepted, facts⟩ := Edit.exists_accepted (g := fun o => (o.render, o.userName))
    (b := (['\'', 'a', '\''], ['\'', 'a', '\''])) (Role.setLiteral .user (.new ['\'', 'a', '\'']))
    id h (by decide +kernel)
  obtain ⟨text, name⟩ := Prod.mk.inj facts
  have reread : (parse '\\' ['\'', 'a', '\'']).toOption.map userName = some ['a'] := by
    decide +kernel
  obtain ⟨b, read, bare⟩ := exists_of_computed reread
  rw [← text] at read
  refine ⟨o, o', h, accepted, text, name, ⟨b, read, bare⟩, ?_⟩
  rintro ⟨b', read', sameUser, -⟩
  obtain rfl := Except.ok.inj (read.symm.trans read')
  rw [bare, name] at sameUser
  cases sameUser

end Owner

end DockerfileSyntax
