import DockerfileSyntax.Proofs.Owner.Edits

/-!
# Owners that can be come by

An owner is read from a text or created. Then its user and its group are set, as texts or as
literals, and edited in place, any number of times, with success or without. `Owner.Obtained` says
so. Whatever is done, nothing but line continuations stands around the colon: `Owner.Formed`.
-/

namespace DockerfileSyntax

open Grammar DockerfileSyntax.Parser

namespace Owner

variable {e : Char} {o : Owner}

/-! ## Edits -/

/-- A new user or a new group, given as a text or as a literal. -/
inductive Setting where
  | user (text : Text)
  | group (text : Option Text)
  | userLiteral (part : Literal)
  | groupLiteral (part : Option Literal)

/-- What the setting does. -/
def Setting.run : Setting → Edit Owner Unit
  | .user text => setUser text
  | .group text => setGroup text
  | .userLiteral part => setUserLiteral part
  | .groupLiteral part => setGroupLiteral part

/-- Edits the literal of the user in its place. -/
def editUser (edit : Edit Literal Unit) : Edit Owner Unit := do
  let o ← get
  Edit.within o.user o.withUser edit

/-- Edits the literal of the group in its place. Without a group there is nothing to edit. -/
def editGroup (edit : Edit Literal Unit) : Edit Owner Unit := do
  let o ← get
  match o.groupLiteral with
  | some group => Edit.within group o.withGroup edit
  | none => return ()

/-- A setting, or an edit of a literal in its place, which may be any edit at all. -/
inductive Change where
  | set (setting : Setting)
  | editUser (edit : Edit Literal Unit)
  | editGroup (edit : Edit Literal Unit)

/-- What the change does. -/
def Change.run : Change → Edit Owner Unit
  | .set setting => setting.run
  | .editUser edit => Owner.editUser edit
  | .editGroup edit => Owner.editGroup edit

/-! ## Owners -/

/-- The owners that are there to begin with where `e` is the escape character: read from a text, or
created where this is the default escape character. -/
inductive Given (e : Char) (o : Owner) : Prop
  | read {text : Text} : parse e text = .ok o → Given e o
  | created {user : Text} {group : Option Text} :
      e = defaultEscape → create user group = .ok o → Given e o

/-- The owners that can be come by: those that are given, changed any number of times, with success
or without. -/
inductive Obtained (e : Char) : Owner → Prop
  | given {o : Owner} : Given e o → Obtained e o
  | changed (change : Change) {o : Owner} :
      Obtained e o → Obtained e (Edit.apply change.run o).result

/-- What is created is read from a text. -/
theorem Given.exists_parse (h : Given e o) : ∃ text, parse e text = .ok o := by
  cases h with
  | @read text read => exact ⟨text, read⟩
  | @created user group default created =>
    subst default
    cases user with
    | nil => cases created
    | cons c user => exact ⟨_, created⟩

theorem Given.wellFormed (h : Given e o) : o.WellFormed e := by
  obtain ⟨text, read⟩ := h.exists_parse
  exact wellFormed_of_parse read

/-! ## What every change keeps -/

/-- Nothing but line continuations stands around the colon. -/
structure Formed (e : Char) (o : Owner) : Prop where
  escape : o.escape = e
  before : ∀ k ∈ o.breaks, k.IsBreak e
  after : ∀ after group, o.group = some (after, group) → ∀ k ∈ after, k.IsBreak e

theorem WellFormed.formed (h : o.WellFormed e) : o.Formed e :=
  ⟨h.escape, h.before, fun after group has => (h.group after group has).1⟩

theorem Formed.withLiteral (h : o.Formed e) (role : Role) (part : Literal) :
    (role.withLiteral o part).Formed e := by
  obtain ⟨user, breaks, group, escape⟩ := o
  cases role with
  | user => exact ⟨h.escape, h.before, h.after⟩
  | group =>
    rcases group with _ | ⟨after, old⟩
    · refine ⟨h.escape, h.before, ?_⟩
      intro after' group' same
      cases same
      simp
    · refine ⟨h.escape, h.before, ?_⟩
      intro after' group' same
      cases same
      exact h.after after old rfl

theorem Formed.withoutGroup (h : o.Formed e) : o.withoutGroup.Formed e :=
  ⟨h.escape, h.before, nofun⟩

/-- Setting the text of a part leaves the owner as it is or puts a literal into it. -/
theorem Formed.after_set (h : o.Formed e) (edit : PartEdit) :
    (Edit.apply edit.run o).result.Formed e := by
  rcases set_cases edit o with ⟨error, failed⟩ | ⟨part, done, -⟩
  · rw [failed]
    exact h
  · rw [done]
    exact h.withLiteral edit.role part

theorem Formed.after_setLiteral (h : o.Formed e) (role : Role) (part : Literal) :
    (Edit.apply (role.setLiteral part) o).result.Formed e := by
  rw [apply_setLiteral]
  cases o.checkPart role.field part with
  | ok u => exact h.withLiteral role part
  | error error => exact h

theorem Formed.after_setting (h : o.Formed e) (setting : Setting) :
    (Edit.apply setting.run o).result.Formed e := by
  cases setting with
  | user text => exact h.after_set ⟨.user, text, nofun⟩
  | group text =>
    rcases text with _ | _ | ⟨c, text⟩
    · exact h.withoutGroup
    · exact h.withoutGroup
    · exact h.after_set ⟨.group, c :: text, fun _ => List.cons_ne_nil c text⟩
  | userLiteral part => exact h.after_setLiteral .user part
  | groupLiteral part =>
    cases part with
    | none => exact h.withoutGroup
    | some part => exact h.after_setLiteral .group part

theorem apply_editUser (edit : Edit Literal Unit) :
    Edit.apply (editUser edit) o =
      ⟨o.withUser (Edit.apply edit o.user).result, (Edit.apply edit o.user).error⟩ :=
  Edit.apply_within o.user o.withUser edit o

theorem apply_editGroup_of_some {group : Literal} (has : o.groupLiteral = some group)
    (edit : Edit Literal Unit) :
    Edit.apply (editGroup edit) o =
      ⟨o.withGroup (Edit.apply edit group).result, (Edit.apply edit group).error⟩ := by
  rw [← Edit.apply_within group o.withGroup edit o, editGroup, Edit.apply, Edit.get_bind, has]
  rfl

theorem apply_editGroup_of_none (hasNot : o.groupLiteral = none) (edit : Edit Literal Unit) :
    Edit.apply (editGroup edit) o = ⟨o, none⟩ := by
  rw [editGroup, Edit.apply, Edit.get_bind, hasNot]
  rfl

theorem Formed.changed (h : o.Formed e) (change : Change) :
    (Edit.apply change.run o).result.Formed e := by
  cases change with
  | set setting => exact h.after_setting setting
  | editUser edit =>
    rw [Change.run, apply_editUser]
    exact h.withLiteral .user _
  | editGroup edit =>
    rw [Change.run]
    cases has : o.groupLiteral with
    | none =>
      rw [apply_editGroup_of_none has]
      exact h
    | some group =>
      rw [apply_editGroup_of_some has]
      exact h.withLiteral .group _

theorem Obtained.formed (h : Obtained e o) : o.Formed e := by
  induction h with
  | given h => exact h.wellFormed.formed
  | changed change _ ih => exact ih.changed change

end Owner

end DockerfileSyntax
