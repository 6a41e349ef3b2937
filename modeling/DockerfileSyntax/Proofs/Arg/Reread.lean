import DockerfileSyntax.Proofs.Arg.Heading
import DockerfileSyntax.Proofs.Lossless

/-!
# Reading a declaration back

A declaration is its heading, its name, its assignment and its trail, one behind the other. `Sound`
says which of these parts are read back whatever the others are; an edit keeps it. What is left is
where the parts meet: `Arg.Sound.parse_render` reads a declaration back if its name may end where it
does and if its value is read before its trail.
-/

namespace DockerfileSyntax

namespace Grammar

open DockerfileSyntax.Parser

/-- Behind `=` stands a value, or the empty one if no value can be read. -/
theorem run_assignment_of_equals (e : Char) {s r : Text} {o : Option Literal}
    (h : run (optional (literal e .ends [])) s = some (o, r)) :
    run (assignment e) ('=' :: s) = some (some (o.getD .empty), r) := by
  have equals : run (eat ['=']) ('=' :: s) = some ((), s) := run_eat_append ['='] s
  rw [assignment, run_optional_bind_eq_some]
  exact .inl ⟨(), s, equals, run_bind_eq_some.mpr ⟨o, r, h, rfl⟩⟩

theorem run_assignment_of_head_ne (e : Char) {s : Text} (h : s.head? ≠ some '=') :
    run (assignment e) s = some (none, s) := by
  rw [assignment, run_optional_bind_eq_some]
  exact .inr ⟨run_eat_of_head_ne h, rfl⟩

/-- Where a value is read, it is empty or well formed. -/
theorem value_of_run_assignment {e : Char} {s r : Text} {l : Literal}
    (h : run (assignment e) s = some (some l, r)) :
    l = .empty ∨ l.WellFormed e .ends [] := by
  rw [assignment, run_optional_bind_eq_some] at h
  rcases h with ⟨u, m, -, h⟩ | ⟨-, h⟩
  · obtain ⟨o, m', ho, h⟩ := run_bind_eq_some.mp h
    have value : l = o.getD .empty := Option.some.inj (run_pure_eq_some.mp h).1
    rw [value]
    rcases run_optional_eq_some.mp ho with ⟨found, rfl, hl⟩ | ⟨rfl, -, -⟩
    · exact .inr (run_literal_sound (by decide) hl)
    · exact .inl rfl
  · cases (run_pure_eq_some.mp h).1

/-- A whole declaration is read part by part. -/
theorem run_arg_eq_some {e : Char} {s : Text} {a : Arg} :
    run (arg e) s = some (a, []) ↔
      ∃ r r' r₂, run (beginning e) s = some (a.heading, r) ∧
        run (argName e) r = some (a.name, r') ∧ run (assignment e) r' = some (a.value, r₂) ∧
        run (ending e) r₂ = some (a.trail, []) ∧ a.escape = e := by
  rw [arg_eq, argBody_eq]
  simp only [run_bind_eq_some, run_pure_eq_some]
  constructor
  · rintro ⟨heading, r, hh, body, r₂, ⟨name, r', hn, value, m, hv, rfl, rfl⟩, trail, k, ht, h⟩
    obtain ⟨rfl, rfl⟩ := h
    exact ⟨r, r', r₂, hh, hn, hv, ht, rfl⟩
  · rintro ⟨r, r', r₂, hh, hn, hv, ht, rfl⟩
    exact ⟨a.heading, r, hh, (a.name, a.value), r₂, ⟨a.name, r', hn, a.value, r₂, hv, rfl, rfl⟩,
      a.trail, [], ht, rfl, rfl⟩

end Grammar

open Grammar DockerfileSyntax.Parser

namespace Arg

theorem parse_eq_ok {e : Char} {s : Text} {a : Arg} :
    parse e s = .ok a ↔ run (arg e) s = some (a, []) :=
  readAll_eq_ok.trans complete_eq_ok

/-- The parts of a declaration that are read back whatever stands between them: the heading before
any name, the name, and the trail. -/
structure Sound (e : Char) (a : Arg) : Prop where
  escape : a.escape = e
  heading : ∀ c r, StartsName e c →
    run (beginning e) (Token.renderAll a.heading.tokens ++ c :: r) = some (a.heading, c :: r)
  name : IsName e a.name.children
  trail : run (ending e) (triviaText a.trail) = some (a.trail, [])

/-- The value, if there is one, is read where it stands. -/
def KeepsValue (e : Char) (a : Arg) : Prop :=
  run (assignment e) a.tail = some (a.value, triviaText a.trail)

theorem startsName_of_isName {e : Char} (he : IsEscape e) {name : Identifier}
    (h : IsName e name.children) : ∃ c m, name.render = c :: m ∧ StartsName e c := by
  obtain ⟨c, m, text, isFirst | ⟨quote, rfl⟩⟩ := Identifier.render_head h
  · have isChar := isArgNameChar_of_isAlphabetic isFirst
    exact ⟨c, m, text, not_isInlineBlank_of_isArgNameChar isChar,
      not_isLineEnd_of_isArgNameChar isChar, ne_of_class isChar (by decide),
      ne_of_class isChar he.not_isArgNameChar⟩
  · refine ⟨quote.char, m, text, ?_, ?_, ?_, (he.ne_quote quote).symm⟩ <;> cases quote <;> decide

section Reading

variable {e : Char} {s : Text} {a b : Arg}

/-- What was read is sound. -/
theorem sound_of_parse (he : IsEscape e) (h : parse e s = .ok a) : a.Sound e ∧ a.KeepsValue e := by
  obtain ⟨r, r', r₂, hh, hn, hv, ht, escape⟩ := run_arg_eq_some.mp (parse_eq_ok.mp h)
  have isName := run_argName_sound hn
  obtain rfl : r = a.name.render ++ r' := (lossless_identifier _).append_eq hn
  obtain rfl : r₂ = triviaText a.trail := by
    have whole : r₂ = triviaText a.trail ++ [] := (lossless_ending e).append_eq ht
    rwa [List.append_nil] at whole
  obtain rfl : r' = assignedText a.value ++ triviaText a.trail :=
    (lossless_assignment e).append_eq hv
  -- the heading was read before one name, and so it is read before all
  obtain ⟨c, m, text, starts⟩ := startsName_of_isName he isName
  refine ⟨⟨escape, fun c' r hc' => ?_, isName, ht⟩, hv⟩
  rw [text, List.cons_append] at hh
  exact run_beginning_of_startsName he hh starts hc'

/-- The heading and the name are read back, each up to where it ends. -/
theorem Sound.run_beginning (he : IsEscape e) (h : a.Sound e) (r : Text) :
    run (beginning e) (Token.renderAll a.heading.tokens ++ (a.name.render ++ r)) =
      some (a.heading, a.name.render ++ r) := by
  obtain ⟨c, m, text, starts⟩ := startsName_of_isName he h.name
  rw [text]
  exact h.heading c (m ++ r) starts

/-- A sound declaration is read back if its name may end where it does and its value is read where
it stands. -/
theorem Sound.parse_render (he : IsEscape e) (h : a.Sound e) (value : a.KeepsValue e)
    (ends : a.name.EndsBefore e a.tail) : parse e a.render = .ok a := by
  rw [parse_eq_ok, render_eq, run_arg_eq_some]
  exact ⟨_, _, _, h.run_beginning he a.tail, run_argName_of_isName he h.name ends, value, h.trail,
    h.escape⟩

/-- Whatever a sound declaration is read back as, its name is read first. -/
theorem Sound.of_parse_render (he : IsEscape e) (h : a.Sound e) (hb : parse e a.render = .ok b) :
    ∃ r, run (Grammar.argName e) (a.name.render ++ a.tail) = some (b.name, r) ∧
      ∃ r', run (assignment e) r = some (b.value, r') := by
  rw [parse_eq_ok, render_eq, run_arg_eq_some] at hb
  obtain ⟨r, r', r₂, hh, hn, hv, -, -⟩ := hb
  rw [h.run_beginning he] at hh
  obtain ⟨-, rfl⟩ := Prod.mk.inj (Option.some.inj hh)
  exact ⟨r', hn, r₂, hv⟩

/-- A name may end before `=`. -/
theorem endsBefore_of_value (he : IsEscape e) {value : Literal} (hv : a.value = some value) :
    a.name.EndsBefore e a.tail := by
  intro _
  have text : a.tail = '=' :: (value.render ++ triviaText a.trail) := by
    rw [tail, hv]
    rfl
  rw [text]
  refine ⟨run_laterChar_of_head fun c hc => ?_, fun _ => breaksLine_of_head (by decide) (by decide)⟩
  obtain rfl : '=' = c := Option.some.inj hc
  exact ⟨by decide, by rcases he with rfl | rfl <;> decide⟩

/-- Where two declarations cannot be told apart by what they declare and by their comments. -/
structure ReadsLike (b a : Arg) : Prop where
  argName : b.argName = a.argName
  argValue : b.argValue = a.argValue
  comments : b.comments = a.comments

theorem readsLike_refl (a : Arg) : a.ReadsLike a := ⟨rfl, rfl, rfl⟩

end Reading

end Arg

end DockerfileSyntax
