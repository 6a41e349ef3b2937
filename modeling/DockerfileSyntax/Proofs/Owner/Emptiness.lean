import DockerfileSyntax.Proofs.Owner.Obtained
import DockerfileSyntax.Proofs.Owner.Parts

/-!
# Empty users and groups

What is read between the ends of a literal is not empty in value unless it is empty in text, and
without quotes a literal has text. So the only parts of an owner without a name are those that are a
pair of quotes around nothing. An owner may be read with such a part, and an empty user is taken for
a user in quotes; an empty literal is not. `Owner.names_kept_iff` says when all the owners that
settings lead to have names.
-/

namespace DockerfileSyntax

open Grammar DockerfileSyntax.Parser

/-! ## Values that are not empty -/

/-- A word begins with a string or with a reference, and so its value is not empty. -/
theorem Word.valueAll_ne_nil {rules : ContentRules} {ts : List Token} (h : Word rules ts)
    (nonempty : ts ≠ []) : Token.valueAll ts ≠ [] := by
  obtain ⟨t, ts, rfl⟩ := List.exists_cons_of_ne_nil nonempty
  have unbroken := h.joined.first t rfl
  cases h.parts t List.mem_cons_self with
  | string hasText _ => simp [hasText]
  | continuation _ => cases unbroken
  | bare _ => simp
  | braced _ => simp
  | modified _ _ _ _ => simp

namespace Literal

variable {l : Literal} {e : Char} {spacing : Spacing} {excluded : List Char}

theorem WellFormed.value_ne_nil (h : l.WellFormed e spacing excluded) (nonempty : l.children ≠ []) :
    l.value ≠ [] := by
  obtain ⟨quote, children⟩ := l
  cases quote with
  | none => exact h.1.valueAll_ne_nil nonempty
  | some quote => exact Word.valueAll_ne_nil h nonempty

/-- A literal that was read and has no value is a pair of quotes around nothing. -/
theorem WellFormed.value_eq_nil_iff (h : l.WellFormed e spacing excluded) :
    l.value = [] ↔ ∃ quote, l = ⟨some quote, []⟩ := by
  constructor
  · intro empty
    have noPart : l.children = [] := by
      by_contra nonempty
      exact h.value_ne_nil nonempty empty
    obtain ⟨quote, children⟩ := l
    obtain rfl : children = [] := noPart
    cases quote with
    | none => exact absurd rfl h.2
    | some quote => exact ⟨quote, rfl⟩
  · rintro ⟨quote, rfl⟩
    rfl

theorem Constructed.value_ne_nil (h : l.Constructed) (nonempty : l.children ≠ []) :
    l.value ≠ [] := by
  have bare (text : Text) (nonempty : mergeStrings [.string text] ≠ []) :
      Token.valueAll (mergeStrings [.string text]) ≠ [] := by
    cases text with
    | nil => exact absurd rfl nonempty
    | cons c text => simp
  induction h with
  | new text => exact bare text nonempty
  | quoted text quote => exact bare text nonempty
  | ofValue text => exact bare text nonempty
  | empty => exact absurd rfl nonempty
  | withQuote quote _ ih => exact ih nonempty

/-- The literals that are at hand without taking tokens apart: made without reading a text, or read
and then put into any quote. -/
inductive IsAtHand : Literal → Prop
  | made {l : Literal} : l.Constructed → IsAtHand l
  | read {l : Literal} {e : Char} {spacing : Spacing} {excluded : List Char}
      (quote : Option Quote) : l.WellFormed e spacing excluded → IsAtHand { l with quote }

theorem IsAtHand.value_ne_nil (h : l.IsAtHand) (nonempty : l.children ≠ []) : l.value ≠ [] := by
  cases h with
  | made constructed => exact constructed.value_ne_nil nonempty
  | read quote wellFormed => exact wellFormed.value_ne_nil nonempty

end Literal

namespace Owner

variable {e : Char} {o : Owner}

/-! ## Owners with names -/

/-- Neither the user nor the group, if there is one, is empty. -/
def HasNames (o : Owner) : Prop := o.userName ≠ [] ∧ o.groupName ≠ some []

theorem HasNames.withLiteral_iff (h : o.HasNames) (role : Role) (part : Literal) :
    (role.withLiteral o part).HasNames ↔ part.value ≠ [] := by
  obtain ⟨user, breaks, group, escape⟩ := o
  cases role with
  | user => exact and_iff_left h.2
  | group =>
    have user : user.value ≠ [] := h.1
    rcases group with _ | ⟨after, old⟩ <;>
      simp [HasNames, Role.withLiteral, withGroup, userName, groupName, groupLiteral, user]

theorem HasNames.withoutGroup (h : o.HasNames) : o.withoutGroup.HasNames :=
  ⟨h.1, nofun⟩

/-- An owner that was read or created has names unless one of its parts is a pair of quotes around
nothing. -/
theorem Given.hasNames_iff (h : Given e o) :
    o.HasNames ↔ ∀ (role : Role) (quote : Quote), role.literal? o ≠ some ⟨some quote, []⟩ := by
  have wellFormed := h.wellFormed
  obtain ⟨user, breaks, group, escape⟩ := o
  have onUser : user.value = [] ↔ ∃ quote, user = ⟨some quote, []⟩ :=
    wellFormed.user.value_eq_nil_iff
  constructor
  · rintro ⟨named, groupNamed⟩ role quote same
    cases role with
    | user => exact named (onUser.mpr ⟨quote, Option.some.inj same⟩)
    | group =>
      refine groupNamed ?_
      have same : groupLiteral ⟨user, breaks, group, escape⟩ = some ⟨some quote, []⟩ := same
      rw [groupName, same]
      rfl
  · intro noEmpty
    refine ⟨fun empty => ?_, fun empty => ?_⟩
    · obtain ⟨quote, same⟩ := onUser.mp empty
      exact noEmpty .user quote (congrArg some same)
    · rcases group with _ | ⟨after, part⟩
      · cases empty
      · have empty : part.value = [] := Option.some.inj empty
        obtain ⟨quote, same⟩ :=
          (wellFormed.group after part rfl).2.value_eq_nil_iff.mp empty
        exact noEmpty .group quote (congrArg some same)

/-! ## Settings -/

/-- The setting is accepted and leaves a part of the owner without a name: an empty user for a user
in quotes, or a literal without a value that passes the check. -/
def Setting.Empties (o : Owner) : Setting → Prop
  | .user text => text = [] ∧ o.user.quote.isSome = true
  | .group _ => False
  | .userLiteral part => o.checkPart .user part = .ok () ∧ part.value = []
  | .groupLiteral none => False
  | .groupLiteral (some part) => o.checkPart .group part = .ok () ∧ part.value = []

/-- A literal that is at hand empties no part. -/
theorem value_ne_nil_of_checkPart {field : EditField} {part : Literal} (h : part.IsAtHand)
    (accepted : o.checkPart field part = .ok ()) : part.value ≠ [] :=
  h.value_ne_nil (checkPart_eq_ok.mp accepted).1

/-- An empty user is refused if the user has no quotes, and put between them if it has. -/
theorem apply_setUser_nil (o : Owner) :
    Edit.apply (setUser []) o =
      if o.user.quote.isSome = true then ⟨o.withUser ⟨o.user.quote, []⟩, none⟩
      else ⟨o, some (.invalid .user .empty)⟩ := by
  have within := Edit.apply_within o.user o.withUser
    (Literal.setContent .user o.escape [':'] false []) o
  rw [Literal.apply_setContent] at within
  have same : Edit.apply (setUser []) o = _ := within
  rw [same]
  obtain ⟨⟨quote, children⟩, breaks, group, escape⟩ := o
  cases quote <;> rfl

theorem HasNames.after_set (h : o.HasNames) (edit : PartEdit) (nonempty : edit.value ≠ []) :
    (Edit.apply edit.run o).result.HasNames := by
  rcases set_cases edit o with ⟨error, failed⟩ | ⟨part, done, wellFormed, -, text⟩
  · rw [failed]
    exact h
  · rw [done]
    refine (h.withLiteral_iff edit.role part).mpr (wellFormed.value_ne_nil ?_)
    intro noPart
    rw [noPart] at text
    exact nonempty text.symm

theorem HasNames.after_setLiteral_iff (h : o.HasNames) (role : Role) (part : Literal) :
    (Edit.apply (role.setLiteral part) o).result.HasNames ↔
      ¬ (o.checkPart role.field part = .ok () ∧ part.value = []) := by
  rw [apply_setLiteral]
  cases o.checkPart role.field part with
  | ok u => simpa using h.withLiteral_iff role part
  | error error => simpa using h

/-- A setting leaves an owner with names unless it empties a part. -/
theorem HasNames.after_iff (h : o.HasNames) (setting : Setting) :
    (Edit.apply setting.run o).result.HasNames ↔ ¬ setting.Empties o := by
  cases setting with
  | user text =>
    cases text with
    | nil =>
      rw [Setting.run, apply_setUser_nil, Setting.Empties]
      split
      · next quoted => exact iff_of_false (fun named => named.1 rfl) (not_not.mpr ⟨rfl, quoted⟩)
      · next bare => exact iff_of_true h fun empties => bare empties.2
    | cons c text =>
      exact iff_of_true (h.after_set ⟨.user, c :: text, nofun⟩ (List.cons_ne_nil c text))
        fun empties => List.cons_ne_nil c text empties.1
  | group text =>
    refine iff_of_true ?_ id
    rcases text with _ | _ | ⟨c, text⟩
    · exact h.withoutGroup
    · exact h.withoutGroup
    · exact h.after_set ⟨.group, c :: text, fun _ => List.cons_ne_nil c text⟩
        (List.cons_ne_nil c text)
  | userLiteral part => exact h.after_setLiteral_iff .user part
  | groupLiteral part =>
    cases part with
    | none => exact iff_of_true h.withoutGroup id
    | some part => exact h.after_setLiteral_iff .group part

/-! ## Runs of settings -/

/-- The owner after these settings. Each of them may fail. -/
def afterSettings (settings : List Setting) (o : Owner) : Owner :=
  Edit.afterAll (settings.map Setting.run) o

/-- On the way through some settings all owners have names if and only if the first one has, and no
setting empties a part of the owner that it meets. -/
theorem hasNames_throughout_iff (settings : List Setting) (o : Owner) :
    (∀ done, done <+: settings → (o.afterSettings done).HasNames) ↔
      o.HasNames ∧ ∀ done setting, done ++ [setting] <+: settings →
        ¬ setting.Empties (o.afterSettings done) := by
  induction settings generalizing o with
  | nil =>
    constructor
    · intro named
      refine ⟨named [] List.nil_prefix, fun done setting before => ?_⟩
      simp at before
    · rintro ⟨named, -⟩ done before
      obtain rfl := List.prefix_nil.mp before
      exact named
  | cons first settings ih =>
    constructor
    · intro named
      have start : o.HasNames := named [] List.nil_prefix
      have rest := (ih (Edit.apply first.run o).result).mp fun done before =>
        named (first :: done) (List.cons_prefix_cons.mpr ⟨rfl, before⟩)
      refine ⟨start, fun done setting before => ?_⟩
      cases done with
      | nil =>
        obtain ⟨rfl, -⟩ := List.cons_prefix_cons.mp before
        exact (start.after_iff setting).mp rest.1
      | cons s done =>
        obtain ⟨rfl, behind⟩ := List.cons_prefix_cons.mp before
        exact rest.2 done setting behind
    · rintro ⟨start, noneEmpties⟩ done before
      cases done with
      | nil => exact start
      | cons s done =>
        obtain ⟨rfl, behind⟩ := List.cons_prefix_cons.mp before
        have named := (start.after_iff s).mpr
          (noneEmpties [] s (List.cons_prefix_cons.mpr ⟨rfl, List.nil_prefix⟩))
        have rest := (ih (Edit.apply s.run o).result).mpr ⟨named, fun done setting before =>
          noneEmpties (s :: done) setting (List.cons_prefix_cons.mpr ⟨rfl, before⟩)⟩
        exact rest done behind

/-- On the way through some settings, an owner that was read or created has names all the time if
and only if it has no part that is a pair of quotes around nothing, and no setting empties a part:
neither an empty user for a user in quotes, nor a literal without a value that passes the check. No
literal that is at hand is one of those. -/
theorem names_kept_iff (h : Given e o) (settings : List Setting) :
    ((∀ done, done <+: settings → (o.afterSettings done).HasNames) ↔
      (∀ (role : Role) (quote : Quote), role.literal? o ≠ some ⟨some quote, []⟩) ∧
      ∀ done setting, done ++ [setting] <+: settings →
        ¬ setting.Empties (o.afterSettings done)) ∧
    ∀ (o' : Owner) (field : EditField) (part : Literal), part.IsAtHand →
      o'.checkPart field part = .ok () → part.value ≠ [] := by
  refine ⟨?_, fun o' field part atHand accepted => value_ne_nil_of_checkPart atHand accepted⟩
  rw [hasNames_throughout_iff, h.hasNames_iff]

/-- `u` refuses an empty user, and then it takes the group `g` in quotes. It has names all the
time. -/
theorem names_kept_iff_sample :
    ∃ o, Given '`' o ∧ (Edit.apply (setUser []) o).error ≠ none ∧
      (o.afterSettings [.user [], .groupLiteral (some (.quoted ['g'] .single))]).render =
        "u:'g'".toList ∧
      ∀ done, done <+: [Setting.user [], .groupLiteral (some (.quoted ['g'] .single))] →
        (o.afterSettings done).HasNames := by
  have h : parse '`' ['u'] = .ok ⟨.new ['u'], [], none, '`'⟩ :=
    eq_ok_of_toOption (by decide +kernel)
  obtain ⟨kept, atHand⟩ :=
    names_kept_iff (.read h) [.user [], .groupLiteral (some (.quoted ['g'] .single))]
  refine ⟨_, .read h, by decide +kernel, by decide +kernel,
    kept.mpr ⟨?_, fun done setting before => ?_⟩⟩
  · rintro (_ | _) quote same <;> cases same
  · rcases done with _ | ⟨first, _ | ⟨second, done⟩⟩
    · obtain ⟨rfl, -⟩ := List.cons_prefix_cons.mp before
      exact fun empties => nomatch empties.2
    · obtain ⟨-, behind⟩ := List.cons_prefix_cons.mp before
      obtain ⟨rfl, -⟩ := List.cons_prefix_cons.mp behind
      exact fun empties => atHand _ _ _ (.made (.quoted ['g'] .single)) empties.1 empties.2
    · simp at before

/-- An empty user is taken for the user of `'u'`, which is then a pair of quotes around nothing. The
literal that is such a pair is refused. -/
theorem quoted_user_emptied :
    ∃ o o', parse '\\' ['\'', 'u', '\''] = .ok o ∧ o.HasNames ∧
      Edit.apply (setUser []) o = ⟨o', none⟩ ∧ o'.userName = [] ∧
      Edit.apply (setUserLiteral (.quoted [] .single)) o =
        ⟨o, some (.invalid .user .empty)⟩ := by
  have h : parse '\\' ['\'', 'u', '\''] = .ok ⟨.quoted ['u'] .single, [], none, '\\'⟩ :=
    eq_ok_of_toOption (by decide +kernel)
  exact ⟨_, _, h, ⟨by decide, nofun⟩, apply_setUser_nil _, rfl, rfl⟩

end Owner

end DockerfileSyntax
