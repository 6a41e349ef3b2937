import DockerfileSyntax.Proofs.Owner.Reread

/-!
# Setting the parts of an owner

A new user or a new group replaces the text of the old one and no other text, and the owner that
results is well formed again. So any number of these edits, successful or not, leaves an owner that
is read back as it is.

1. `set_cases`: what setting a part does, the same for the user and the group.
2. `WellFormed.after_set`: an edit keeps an owner well formed.
3. `WellFormed.rewrites`: what an accepted edit does to the text.
4. `rewrites_and_reparses`: both, after any edits before.
-/

namespace DockerfileSyntax

open Grammar DockerfileSyntax.Parser

namespace Owner

/-! ## Parts -/

/-- The parts of an owner. -/
inductive Role where
  | user
  | group
deriving DecidableEq

namespace Role

/-- The literal of a part, if the owner has this part. -/
def literal? : Role → Owner → Option Literal
  | user, o => some o.user
  | group, o => o.groupLiteral

/-- The field that an edit of the part names in its errors. -/
def field : Role → EditField
  | user => .user
  | group => .group

/-- The owner with another literal for a part. -/
def withLiteral : Role → Owner → Literal → Owner
  | user => withUser
  | group => withGroup

/-- Sets the text of a part. -/
def set : Role → Text → Edit Owner Unit
  | user, value => setUser value
  | group, value => setGroup (some value)

/-- Replaces the literal of a part, or adds the group. -/
def setLiteral : Role → Literal → Edit Owner Unit
  | user, part => setUserLiteral part
  | group, part => setGroupLiteral (some part)

end Role

/-- The value of a part, set as text. A group is not removed. -/
structure PartEdit where
  role : Role
  value : Text
  keepsGroup : role = .group → value ≠ []

/-- What the edit does. -/
def PartEdit.run (edit : PartEdit) : Edit Owner Unit := edit.role.set edit.value

/-- The owner after these edits. Each of them may fail. -/
def afterAll (edits : List PartEdit) (o : Owner) : Owner :=
  Edit.afterAll (edits.map PartEdit.run) o

/-- The text of a new value where the old one had this quote: the value in the same quotes, and in
double quotes if the old one had none and the value holds white space. -/
def newText (old : Option Quote) (value : Text) : Text :=
  let quote := old.or (if value.any isBlank then some .double else none)
  Quote.mark quote ++ value ++ Quote.mark quote

/-- From `o` to `o'`, the text of the edited part has become that of the new value, and no other
text has changed; a new group stands behind a colon at the end. -/
def PartEdit.Rewrites (edit : PartEdit) (o o' : Owner) : Prop :=
  match edit.role, o.groupLiteral with
  | .user, _ => ∃ behind, o.render = o.user.render ++ behind ∧
      o'.render = newText o.user.quote edit.value ++ behind
  | .group, some group => ∃ before, o.render = before ++ group.render ∧
      o'.render = before ++ newText group.quote edit.value
  | .group, none => o'.render = o.render ++ ':' :: newText none edit.value

/-! ## What an edit does -/

variable {e : Char} {o o' : Owner}

theorem checkPart_eq_ok {field : EditField} {part : Literal} :
    o.checkPart field part = .ok () ↔
      part.children ≠ [] ∧ ∃ l, complete (Grammar.ownerPart o.escape) part.render = .ok l := by
  rw [checkPart]
  cases hp : part.children with
  | nil => simp
  | cons t ts => cases complete (Grammar.ownerPart o.escape) part.render <;> simp

theorem render_eq_newText (l : Literal) {value : Text} {children : List Token}
    (text : Token.renderAll children = value) :
    Literal.render ⟨l.quoteWith value, children⟩ = newText l.quote value := by
  rw [Literal.render_eq, text]
  rfl

/-- A literal that passes the check is stored. -/
theorem apply_setLiteral (role : Role) (part : Literal) :
    Edit.apply (role.setLiteral part) o =
      match o.checkPart role.field part with
      | .ok () => ⟨role.withLiteral o part, none⟩
      | .error error => ⟨o, some error⟩ := by
  cases role with
  | user =>
    rw [Role.setLiteral, setUserLiteral, Edit.apply, Edit.get_bind, Edit.check_bind]
    show _ = match o.checkPart .user part with | .ok () => _ | .error error => _
    cases o.checkPart .user part <;> rfl
  | group =>
    rw [Role.setLiteral, setGroupLiteral, Edit.apply, Edit.get_bind, Edit.check_bind]
    show _ = match o.checkPart .group part with | .ok () => _ | .error error => _
    cases o.checkPart .group part <;> rfl

/-- A part that the owner has is edited in its place. -/
theorem apply_set_of_some (edit : PartEdit) {part : Literal}
    (has : edit.role.literal? o = some part) :
    Edit.apply edit.run o = Edit.apply (Edit.within part (edit.role.withLiteral o)
      (Literal.setContent edit.role.field o.escape [':'] false edit.value)) o := by
  obtain ⟨role, value, keepsGroup⟩ := edit
  cases role with
  | user =>
    cases has
    rfl
  | group =>
    cases value with
    | nil => exact absurd rfl (keepsGroup rfl)
    | cons c value =>
      obtain ⟨user, breaks, group, escape⟩ := o
      rcases group with _ | ⟨after, group⟩
      · cases has
      · cases has
        rfl

/-- A group that the owner does not have is read by itself and then stored. -/
theorem apply_set_of_none (edit : PartEdit) (hasNot : edit.role.literal? o = none) :
    Edit.apply edit.run o = Edit.apply (do
      let part ← Edit.edited
        (Literal.setContent edit.role.field o.escape [':'] false edit.value) .empty
      edit.role.setLiteral part) o := by
  obtain ⟨role, value, keepsGroup⟩ := edit
  cases role with
  | user => cases hasNot
  | group =>
    cases value with
    | nil => exact absurd rfl (keepsGroup rfl)
    | cons c value =>
      obtain ⟨user, breaks, group, escape⟩ := o
      rcases group with _ | ⟨after, group⟩
      · rfl
      · cases hasNot

theorem withLiteral_self {role : Role} {part : Literal} (has : role.literal? o = some part) :
    role.withLiteral o part = o := by
  obtain ⟨user, breaks, group, escape⟩ := o
  cases role with
  | user =>
    cases has
    rfl
  | group =>
    rcases group with _ | ⟨after, group⟩
    · cases has
    · cases has
      rfl

/-- Setting a part either changes nothing or stores a well-formed literal with the new content, in
the quotes of the old part or in those that the content needs. -/
theorem set_cases (edit : PartEdit) (o : Owner) :
    (∃ error, Edit.apply edit.run o = ⟨o, some error⟩) ∨
      ∃ part : Literal, Edit.apply edit.run o = ⟨edit.role.withLiteral o part, none⟩ ∧
        part.WellFormed o.escape .ends [':'] ∧
        part.quote = ((edit.role.literal? o).getD .empty).quoteWith edit.value ∧
        Token.renderAll part.children = edit.value := by
  cases has : edit.role.literal? o with
  | some old =>
    rw [apply_set_of_some edit has, Edit.apply_within]
    rcases Literal.setContent_cases edit.role.field o.escape [':'] edit.value old with
      ⟨error, failed⟩ | ⟨children, done, text, wellFormed⟩
    · rw [failed, withLiteral_self has]
      exact .inl ⟨error, rfl⟩
    · rw [done]
      exact .inr ⟨_, rfl, wellFormed, rfl, text⟩
  | none =>
    rw [apply_set_of_none edit has, Edit.apply, Edit.check_bind, Edit.edited]
    rcases Literal.setContent_cases edit.role.field o.escape [':'] edit.value .empty with
      ⟨error, failed⟩ | ⟨children, done, text, wellFormed⟩
    · rw [failed]
      exact .inl ⟨error, rfl⟩
    · have stored := apply_setLiteral (o := o) edit.role
        ⟨Literal.empty.quoteWith edit.value, children⟩
      rw [done]
      -- what has just been read is checked once more
      cases check : o.checkPart edit.role.field ⟨Literal.empty.quoteWith edit.value, children⟩ with
      | error error =>
        rw [check] at stored
        exact .inl ⟨error, stored⟩
      | ok u =>
        rw [check] at stored
        exact .inr ⟨_, stored, wellFormed, rfl, text⟩

/-- The text of a part that has been set. -/
theorem render_of_set {edit : PartEdit} {part : Literal}
    (quote : part.quote = ((edit.role.literal? o).getD .empty).quoteWith edit.value)
    (text : Token.renderAll part.children = edit.value) :
    part.render = newText ((edit.role.literal? o).bind Literal.quote) edit.value := by
  obtain ⟨own, children⟩ := part
  obtain rfl := quote
  rw [render_eq_newText _ text]
  cases edit.role.literal? o <;> rfl

/-! ## What an edit keeps -/

theorem WellFormed.withLiteral (h : o.WellFormed e) (role : Role) {part : Literal}
    (hp : part.WellFormed e .ends [':']) : (role.withLiteral o part).WellFormed e := by
  obtain ⟨user, before, group, escape⟩ := o
  cases role with
  | user => exact ⟨h.escape, hp, h.before, h.alone, h.group⟩
  | group =>
    rcases group with _ | ⟨after, old⟩
    · refine ⟨h.escape, h.user, h.before, nofun, ?_⟩
      intro after' group' same
      cases same
      exact ⟨by simp, hp⟩
    · refine ⟨h.escape, h.user, h.before, nofun, ?_⟩
      intro after' group' same
      cases same
      exact ⟨(h.group after old rfl).1, hp⟩

theorem WellFormed.after_set (h : o.WellFormed e) (edit : PartEdit) :
    (Edit.apply edit.run o).result.WellFormed e := by
  obtain rfl := h.escape
  rcases set_cases edit o with ⟨error, failed⟩ | ⟨part, done, wellFormed, -⟩
  · rw [failed]
    exact h
  · rw [done]
    exact h.withLiteral edit.role wellFormed

theorem WellFormed.afterAll (h : o.WellFormed e) (edits : List PartEdit) :
    (o.afterAll edits).WellFormed e := by
  refine Edit.afterAll_induction ?_ h
  intro run hr o h
  obtain ⟨edit, -, rfl⟩ := List.mem_map.mp hr
  exact h.after_set edit

/-! ## The text after an edit -/

/-- Storing a part with the text of a new value rewrites that part alone. -/
theorem WellFormed.rewrites_withLiteral (h : o.WellFormed e) (edit : PartEdit) {part : Literal}
    (text : part.render = newText ((edit.role.literal? o).bind Literal.quote) edit.value) :
    edit.Rewrites o (edit.role.withLiteral o part) := by
  obtain ⟨role, value, keepsGroup⟩ := edit
  obtain ⟨user, breaks, group, escape⟩ := o
  cases role with
  | user =>
    have text : part.render = newText user.quote value := text
    refine ⟨breaksText breaks ++ groupText group, render_eq _, ?_⟩
    show render ⟨part, breaks, group, escape⟩ = newText user.quote value ++ _
    rw [render_eq, ← text]
  | group =>
    rcases group with _ | ⟨after, old⟩
    · obtain rfl : breaks = [] := h.alone rfl
      have text : part.render = newText none value := text
      show render ⟨user, [], some ([], part), escape⟩ =
        render ⟨user, [], none, escape⟩ ++ ':' :: newText none value
      simp [render_eq, groupText, text]
    · have text : part.render = newText old.quote value := text
      refine ⟨user.render ++ (breaksText breaks ++ ':' :: breaksText after), ?_, ?_⟩
      · simp [render_eq, groupText]
      · show render ⟨user, breaks, some (after, part), escape⟩ = _ ++ newText old.quote value
        simp [render_eq, groupText, text]

theorem WellFormed.rewrites (h : o.WellFormed e) {edit : PartEdit}
    (accepted : Edit.apply edit.run o = ⟨o', none⟩) : edit.Rewrites o o' := by
  rcases set_cases edit o with ⟨error, failed⟩ | ⟨part, done, -, quote, text⟩
  · rw [failed] at accepted
    cases accepted
  · rw [done] at accepted
    cases accepted
    exact h.rewrites_withLiteral edit (render_of_set quote text)

/-- However the parts of an owner that was read have been set, with success or without: the next
edit that is accepted rewrites the text of its part and no other text, and the owner is read back
with the same tokens. -/
theorem rewrites_and_reparses (he : IsEscape e) {text : Text} (h : parse e text = .ok o)
    (edits : List PartEdit) :
    (∀ (edit : PartEdit) (o' : Owner), Edit.apply edit.run (o.afterAll edits) = ⟨o', none⟩ →
      edit.Rewrites (o.afterAll edits) o') ∧
    parse e (o.afterAll edits).render = .ok (o.afterAll edits) := by
  have wellFormed := (wellFormed_of_parse h).afterAll edits
  exact ⟨fun edit o' accepted => wellFormed.rewrites accepted, wellFormed.parse_render he⟩

/-- `u:g` becomes `"a b":g`, and then the user takes the value `a:b` in the quotes that it has by
now. -/
theorem rewrites_and_reparses_sample :
    ∃ o o', parse '\\' ['u', ':', 'g'] = .ok o ∧
      (o.afterAll [⟨.user, ['a', ' ', 'b'], nofun⟩]).render = "\"a b\":g".toList ∧
      Edit.apply (PartEdit.run ⟨.user, ['a', ':', 'b'], nofun⟩)
        (o.afterAll [⟨.user, ['a', ' ', 'b'], nofun⟩]) = ⟨o', none⟩ ∧
      o'.render = "\"a:b\":g".toList ∧
      PartEdit.Rewrites ⟨.user, ['a', ':', 'b'], nofun⟩
        (o.afterAll [⟨.user, ['a', ' ', 'b'], nofun⟩]) o' ∧
      parse '\\' (o.afterAll [⟨.user, ['a', ' ', 'b'], nofun⟩]).render =
        .ok (o.afterAll [⟨.user, ['a', ' ', 'b'], nofun⟩]) := by
  have quoted : (parse '\\' ['u', ':', 'g']).toOption.map (fun o =>
      (o.afterAll [⟨.user, ['a', ' ', 'b'], nofun⟩]).render) = some "\"a b\":g".toList := by
    decide +kernel
  obtain ⟨o, h, text⟩ := exists_of_computed quoted
  obtain ⟨o', accepted, text'⟩ := Edit.exists_accepted (g := render) (b := "\"a:b\":g".toList)
    (PartEdit.run ⟨.user, ['a', ':', 'b'], nofun⟩) (afterAll [⟨.user, ['a', ' ', 'b'], nofun⟩]) h
    (by decide +kernel)
  obtain ⟨rewrites, again⟩ :=
    rewrites_and_reparses (.inl rfl) h [⟨.user, ['a', ' ', 'b'], nofun⟩]
  exact ⟨o, o', h, text, accepted, text', rewrites _ o' accepted, again⟩

end Owner

end DockerfileSyntax
