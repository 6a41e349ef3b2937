import DockerfileSyntax.Proofs.Owner.Edits

/-!
# Removing the group of an owner

The group goes together with the colon, and the line continuations in front of the colon stay where
they are. Behind a user by itself there is no place for them: what is left is an owner again if and
only if there were none.

1. `run_ownerGroup_breaks`: no group is read off line continuations alone.
2. `WellFormed.parse_withoutGroup_iff`: the text without the group reads again exactly if no line
   continuation is left behind the user.
3. `parse_after_removal_iff`: the same for the owners that are read from texts.
-/

namespace DockerfileSyntax

open Grammar DockerfileSyntax.Parser

namespace Owner

variable {e : Char} {o : Owner}

theorem apply_setGroup_none (o : Owner) :
    Edit.apply (setGroup none) o = ⟨o.withoutGroup, none⟩ :=
  rfl

/-- The text up to the colon stays as it is. -/
theorem render_withoutGroup (o : Owner) :
    o.withoutGroup.render = o.user.render ++ breaksText o.breaks := by
  rw [render_eq]
  show o.user.render ++ (breaksText o.breaks ++ []) = _
  rw [List.append_nil]

theorem WellFormed.withoutGroup (h : o.WellFormed e) (bare : o.breaks = []) :
    o.withoutGroup.WellFormed e :=
  ⟨h.escape, h.user, h.before, fun _ => bare, nofun⟩

/-- Behind line continuations at the end of the text there is no group. -/
theorem run_ownerGroup_breaks {breaks : List Continuation} (all : ∀ k ∈ breaks, k.IsBreak e) :
    run (ownerGroup e) (breaksText breaks) = none := by
  have atEnd : run (continuation e) [] = none := run_continuation_of_head_ne nofun
  rw [Option.eq_none_iff_forall_ne_some]
  rintro ⟨⟨before, after, group⟩, r⟩ read
  obtain ⟨m, m', first, -, -⟩ := run_ownerGroup_eq_some.mp read
  obtain ⟨all', same, stop⟩ := run_continuations_eq_some.mp first
  -- all of the text is line continuations, which leaves nothing for the colon
  have rest := (breaks_unique all all' atEnd stop (by rw [List.append_nil, same])).2
  cases rest

/-- The user is read from the text that is left, and the line continuations are not. -/
theorem WellFormed.run_owner_withoutGroup (he : IsEscape e) (h : o.WellFormed e) :
    run (Grammar.owner e) o.withoutGroup.render =
      some (⟨o.user, [], none, e⟩, breaksText o.breaks) := by
  have apart : o.user.EndsBefore e .ends [':'] (breaksText o.breaks ++ []) :=
    o.user.endsBefore_breaks he h.before (boundary_nil o.user.children)
      (run_continuation_of_head_ne nofun) run_unit_nil
  have read := run_literal_of_wellFormed he (by decide) h.user apart
  rw [List.append_nil] at read
  rw [render_withoutGroup, run_owner_eq_some]
  exact ⟨o.user, _, read, .inr ⟨run_ownerGroup_breaks h.before, rfl, rfl⟩⟩

theorem WellFormed.parse_withoutGroup_iff (he : IsEscape e) (h : o.WellFormed e) {again : Owner} :
    parse e o.withoutGroup.render = .ok again ↔ o.breaks = [] ∧ again = o.withoutGroup := by
  have read := h.run_owner_withoutGroup he
  constructor
  · intro hp
    obtain ⟨-, left⟩ := Prod.mk.inj (Option.some.inj (read.symm.trans (parse_eq_ok.mp hp)))
    have bare : o.breaks = [] := by
      cases hb : o.breaks with
      | nil => rfl
      | cons k breaks =>
        obtain ⟨gap, ending, -, -, rfl⟩ := h.before k (hb ▸ List.mem_cons_self)
        rw [hb, breaksText_cons, render_broken] at left
        cases left
    have again' := (h.withoutGroup bare).parse_render he
    exact ⟨bare, Except.ok.inj (hp.symm.trans again')⟩
  · rintro ⟨bare, rfl⟩
    exact (h.withoutGroup bare).parse_render he

/-- The group of an owner that was read can always be removed. The user and the line continuations
between it and the colon stay, and the text that is left reads as an owner if and only if there are
no such line continuations, and then as the same user without a group. -/
theorem parse_after_removal_iff (he : IsEscape e) {text : Text} (h : parse e text = .ok o) :
    ∃ o', Edit.apply (setGroup none) o = ⟨o', none⟩ ∧
      o'.render = o.user.render ++ breaksText o.breaks ∧
      o'.userName = o.userName ∧ o'.groupName = none ∧
      ((∃ again, parse e o'.render = .ok again) ↔ o.breaks = []) ∧
      ∀ again, parse e o'.render = .ok again →
        again = o' ∧ again.userName = o.userName ∧ again.groupName = none := by
  have wellFormed := wellFormed_of_parse h
  refine ⟨o.withoutGroup, apply_setGroup_none o, render_withoutGroup o, rfl, rfl, ?_, ?_⟩
  · constructor
    · rintro ⟨again, read⟩
      exact ((wellFormed.parse_withoutGroup_iff he).mp read).1
    · intro bare
      exact ⟨_, (wellFormed.parse_withoutGroup_iff he).mpr ⟨bare, rfl⟩⟩
  · intro again read
    obtain ⟨-, rfl⟩ := (wellFormed.parse_withoutGroup_iff he).mp read
    exact ⟨rfl, rfl, rfl⟩

/-- Without its group, `u:g` is the user `u`, which is read back. -/
theorem parse_after_removal_sample :
    ∃ o o', parse '`' ['u', ':', 'g'] = .ok o ∧
      Edit.apply (setGroup none) o = ⟨o', none⟩ ∧ o'.userName = ['u'] ∧
      ∃ again, parse '`' o'.render = .ok again ∧ again = o' := by
  have facts : (parse '`' ['u', ':', 'g']).toOption.map (fun o => (o.breaks, o.userName)) =
      some ([], ['u']) := by
    decide +kernel
  obtain ⟨o, h, facts⟩ := exists_of_computed facts
  obtain ⟨bare, user⟩ := Prod.mk.inj facts
  obtain ⟨o', accepted, -, sameUser, -, reads, agrees⟩ := parse_after_removal_iff (.inr rfl) h
  obtain ⟨again, read⟩ := reads.mpr bare
  exact ⟨o, o', h, accepted, sameUser.trans user, again, read, (agrees again read).1⟩

/-- Where a line continuation stands between the user and the colon, the text that is left ends with
it, and that is no owner. -/
theorem unreadable_after_removal :
    ∃ o o', parse '\\' ['u', '\\', '\n', ':', 'g'] = .ok o ∧
      Edit.apply (setGroup none) o = ⟨o', none⟩ ∧ o'.render = ['u', '\\', '\n'] ∧
      ¬ ∃ again, parse '\\' o'.render = .ok again ∧ again.userName = o.userName ∧
        again.groupName = none := by
  have text : (parse '\\' ['u', '\\', '\n', ':', 'g']).toOption.map
      (fun o => o.withoutGroup.render) = some ['u', '\\', '\n'] := by
    decide +kernel
  obtain ⟨o, h, left⟩ := exists_of_computed text
  have refused : (parse '\\' ['u', '\\', '\n']).toOption = none := by decide +kernel
  refine ⟨o, o.withoutGroup, h, rfl, left, ?_⟩
  rintro ⟨again, read, -, -⟩
  rw [left] at read
  rw [read] at refused
  cases refused

end Owner

end DockerfileSyntax
