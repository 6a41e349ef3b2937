import DockerfileSyntax.Proofs.Failures.Content
import DockerfileSyntax.Proofs.Owner.Reread

/-!
# What stands before the position of a failure

A refused text fails behind a beginning of an owner, so that the position reported is that of the
first character with which no owner goes on. The one exception is a text that begins with an escape
character and two blanks or more, and then no line end: it is refused behind the white space, where
the line would have had to end, but no owner begins like that.

1. `failsBehind_owner`: where the grammar of owners fails.
2. `reaches_owner`: the exception reaches behind the white space.
3. `not_beginsOwner`: no owner begins with an escape character and two blanks.
4. `fails_behind_owner_iff`: the exact condition.
-/

namespace DockerfileSyntax

open Grammar DockerfileSyntax.Parser

namespace Owner

variable {e : Char} {s t : Text}

/-- The text is a beginning of an owner. -/
def BeginsOwner (e : Char) (t : Text) : Prop :=
  ∃ (o : Owner) (u : Text), o.WellFormed e ∧ o.render = t ++ u

theorem beginsOwner_iff (he : IsEscape e) :
    BeginsOwner e t ↔ ∃ u o, parse e (t ++ u) = .ok o := by
  constructor
  · rintro ⟨o, u, wellFormed, text⟩
    exact ⟨u, o, (parse_eq_ok_iff he).mpr ⟨text, wellFormed⟩⟩
  · rintro ⟨u, o, read⟩
    obtain ⟨text, wellFormed⟩ := (parse_eq_ok_iff he).mp read
    exact ⟨o, u, wellFormed, text⟩

/-! ## Where owners fail -/

theorem beginsOwner_user {user : Literal} {u : Text} (hu : user.WellFormed e .ends [':'])
    (text : user.render = t ++ u) : BeginsOwner e t :=
  ⟨⟨user, [], none, e⟩, u, ⟨rfl, hu, by simp, fun _ => rfl, nofun⟩, by
    simp [render_eq, groupText, text]⟩

theorem beginsOwner_group {user group : Literal} {before after : List Continuation} {u : Text}
    (hu : user.WellFormed e .ends [':']) (hb : ∀ k ∈ before, k.IsBreak e)
    (ha : ∀ k ∈ after, k.IsBreak e) (hg : group.WellFormed e .ends [':'])
    (text : user.render ++ (breaksText before ++ ':' :: (breaksText after ++ group.render)) =
      t ++ u) : BeginsOwner e t := by
  refine ⟨⟨user, before, some (after, group), e⟩, u, ⟨rfl, hu, hb, nofun, ?_⟩, ?_⟩
  · rintro _ _ ⟨⟩
    exact ⟨ha, hg⟩
  · rw [render_eq]
    exact text

/-- Behind the user, the line continuations, the colon and the group fail behind a beginning of an
owner. -/
theorem failsBehind_ownerGroup (he : IsEscape e) {user : Literal}
    (hu : user.WellFormed e .ends [':']) :
    FailsBehind (ownerGroup e) s fun t => BeginsOwner e (user.render ++ t) := by
  obtain ⟨x, u, hx, -⟩ : BeginsLiteral e .ends [':'] [] := beginsLiteral_nil
  have colon {before after : List Continuation} (hb : ∀ k ∈ before, k.IsBreak e)
      (ha : ∀ k ∈ after, k.IsBreak e) {t u : Text}
      (text : breaksText before ++ ':' :: (breaksText after ++ x.render) = t ++ u) :
      BeginsOwner e (user.render ++ t) :=
    beginsOwner_group hu hb ha hx (u := u) (by rw [text, List.append_assoc])
  have noBreaks : ∀ k ∈ ([] : List Continuation), k.IsBreak e := by simp
  have before : FailsBehind (continuations e) s fun t => BeginsOwner e (user.render ++ t) := by
    refine failsBehind_continuations (fun breaks all => colon all noBreaks rfl)
      fun breaks t all isMark => ?_
    obtain ⟨more, all, text⟩ := isMark.exists_breaks all
    exact colon all noBreaks (u := '\n' :: ':' :: x.render) (by simp [text])
  have lossless : Lossless (continuations e) breaksText := lossless_continuations e
  refine before.bind lossless fun breaks m read _ => ?_
  have all : ∀ k ∈ breaks, k.IsBreak e := (run_continuations_eq_some.mp read).1
  refine (failsBehind_eat _ ?_).bind (lossless_eat _) fun _ m' _ _ => ?_
  · rw [List.append_nil]
    exact colon all noBreaks rfl
  refine FailsBehind.bind lossless (failsBehind_continuations (fun after all' => ?_)
    fun after t all' isMark => ?_) fun after m₂ read' _ => ?_
  · exact colon all all' (u := x.render) (by simp)
  · obtain ⟨more, all', text⟩ := isMark.exists_breaks all'
    exact colon all all' (u := '\n' :: x.render) (by simp [text])
  have all' : ∀ k ∈ after, k.IsBreak e := (run_continuations_eq_some.mp read').1
  refine FailsBehind.andPure ((failsBehind_literal he (by decide)).mono fun t _ h => ?_) _
  rcases h with ⟨group, u, hg, text⟩ | wide
  · exact beginsOwner_group hu all all' hg (u := u) (by simp [text])
  · -- here the line may still break
    obtain ⟨more, all', text⟩ := wide.isMark.exists_breaks all'
    exact colon all all' (u := '\n' :: x.render) (by simp [text])

/-- The grammar of owners fails behind a beginning of an owner or behind a wide mark. -/
theorem failsBehind_owner (he : IsEscape e) :
    FailsBehind (Grammar.owner e) s fun t => BeginsOwner e t ∨ WideMark e s t := by
  have user : FailsBehind (ownerPart e) s fun t => BeginsOwner e t ∨ WideMark e s t := by
    refine (failsBehind_literal he (by decide)).mono fun t _ h => h.imp_left ?_
    rintro ⟨l, u, wellFormed, text⟩
    exact beginsOwner_user wellFormed text
  refine user.bind (lossless_literal ..) fun user m read _ => ?_
  have hu : user.WellFormed e .ends [':'] := run_literal_sound (by decide) read
  exact ((failsBehind_ownerGroup he hu).mono fun _ _ => .inl).bind_optional
    (lossless_ownerGroup e) (fun _ _ _ _ => failsBehind_pure _) fun _ => failsBehind_pure _

/-! ## Wide marks -/

/-- The text begins with an escape character and two blanks or more, and the line does not end
behind them. -/
def opensWide (e : Char) : Text → Bool
  | [] => false
  | c :: t => c == e && decide (2 ≤ (t.takeWhile isInlineBlank).length) && !breaksLine t

theorem opensWide_of_wideMark (h : WideMark e s t) (isPrefix : t <+: s) : opensWide e s = true := by
  obtain ⟨gap, blank, wide, rfl⟩ := h.wide
  obtain ⟨r, rfl⟩ := isPrefix
  have unbroken : breaksLine (gap ++ r) = false := by
    rw [← isSome_run_continuation e, ← List.cons_append, h.unbroken]
    rfl
  have long : 2 ≤ ((gap ++ r).takeWhile isInlineBlank).length := by
    rw [List.takeWhile_append_of_pos blank, List.length_append]
    omega
  rw [List.cons_append, opensWide, unbroken, decide_eq_true long, beq_self_eq_true]
  rfl

/-- What a text that opens wide looks like. -/
theorem exists_of_opensWide (h : opensWide e s = true) :
    ∃ gap r, s = e :: (gap ++ r) ∧ (∀ c ∈ gap, isInlineBlank c = true) ∧ 2 ≤ gap.length ∧
      (∀ c, r.head? = some c → isInlineBlank c = false) ∧ run newLine r = none := by
  cases s with
  | nil => cases h
  | cons c s =>
    simp only [opensWide, Bool.and_eq_true, beq_iff_eq, decide_eq_true_eq, Bool.not_eq_true'] at h
    obtain ⟨⟨rfl, wide⟩, unbroken⟩ := h
    obtain ⟨blank, stop, split⟩ := run_takeWhile_eq_some (run_takeWhile isInlineBlank s)
    refine ⟨_, _, by rw [← split], blank, wide, stop, ?_⟩
    rw [Option.eq_none_iff_forall_ne_some]
    rintro ⟨ending, r⟩ read
    obtain ⟨isEnd, text⟩ := run_newLine_eq_some.mp read
    rw [split, text, breaksLine_append blank isEnd r] at unbroken
    cases unbroken

section

variable {gap r : Text} (blank : ∀ c ∈ gap, isInlineBlank c = true)
  (stop : ∀ c, r.head? = some c → isInlineBlank c = false) (missing : run newLine r = none)

include blank stop missing

theorem reaches_continuation : Reaches (continuation e) (e :: (gap ++ r)) (e :: gap) := by
  have inLine : Reaches newLine r [] := reaches_choose missing
  have behindGap := Reaches.bind_of_run (p := blanks) (s := gap ++ r)
    (f := fun gap => newLine >>= fun ending =>
      pure (⟨.symbol [e] :: (blankTokens gap ++ [.newLine ending])⟩ : Continuation))
    lossless_blanks (run_blanks_append blank stop) inLine.bind
  have whole := Reaches.bind_of_run (p := eat [e]) (s := e :: (gap ++ r))
    (f := fun _ => blanks >>= fun gap => newLine >>= fun ending =>
      pure (⟨.symbol [e] :: (blankTokens gap ++ [.newLine ending])⟩ : Continuation))
    (lossless_eat [e]) (run_eat_append [e] _) behindGap
  rw [List.append_nil] at whole
  exact whole.attempt

theorem reaches_content (rules : ContentRules) (h : rules.escape = e) :
    Reaches (content rules) (e :: (gap ++ r)) (e :: gap) := by
  subst h
  rw [content_eq, contentWith]
  refine Reaches.bind ?_
  rw [firstUnit]
  -- a line continuation is tried by this look ahead, by the unit and before an escaped character;
  -- each time it fails behind the white space, so that the first of them is enough
  exact ((reaches_continuation blank stop missing).sees.bind).attempt

/-- No literal in quotes is there to be read. -/
theorem reaches_owner (he : IsEscape e) :
    Reaches (Grammar.owner e) (e :: (gap ++ r)) (e :: gap) := by
  have notQuoted (quote : Quote) : run (optional do
        let _ ← satisfy .openingQuote (· == quote.char)
        let found ← literalContent e .ends [':'] (some quote)
        let _ ← satisfy (.closingQuote quote) (· == quote.char)
        return found) (e :: (gap ++ r)) = some (none, e :: (gap ++ r)) := by
    refine run_optional_of_none ?_
    rw [Option.eq_none_iff_forall_ne_some]
    rintro ⟨found, m⟩ read
    obtain ⟨t, split, -⟩ := run_wrapped_eq_some.mp read
    exact he.ne_quote quote (List.cons.inj split).1
  have bare : Reaches (literalContent e .ends [':'] none) (e :: (gap ++ r)) (e :: gap) :=
    reaches_content blank stop missing _ rfl
  rw [Grammar.owner]
  refine Reaches.bind ?_
  rw [ownerPart, literal]
  refine Reaches.bind ?_
  rw [inOptionalQuotes]
  have quoted (quote : Quote) :=
    (lossless_wrapped (lossless_literalContent e .ends [':'] (some quote)) quote).optional
  refine Reaches.bind_of_run (quoted .single) (notQuoted .single) ?_
  refine Reaches.bind_of_run (quoted .double) (notQuoted .double) ?_
  exact bare.bind

end

/-! ## The condition -/

/-- No owner begins with an escape character and two blanks. -/
theorem not_beginsOwner (he : IsEscape e) {c d : Char} (hd : isInlineBlank d = true) :
    ¬ BeginsOwner e (e :: c :: d :: t) := by
  rintro ⟨⟨⟨quote, ts⟩, breaks, group, escape⟩, u, wellFormed, text⟩
  have rest : ∀ c t, breaksText breaks ++ groupText group = c :: t → isInlineBlank c = false := by
    rintro c t text
    rcases breaks with _ | ⟨k, breaks⟩
    · rcases group with _ | ⟨after, group⟩
      · cases text
      · cases text
        decide
    · obtain ⟨gap, ending, -, -, rfl⟩ := wellFormed.before k List.mem_cons_self
      rw [breaksText_cons, render_broken] at text
      cases text
      exact he.not_isInlineBlank
  rw [render_eq] at text
  cases quote with
  | some quote =>
    rw [Literal.render_eq, Quote.mark] at text
    exact he.ne_quote quote (List.cons.inj text).1.symm
  | none =>
    obtain ⟨isWord, nonempty⟩ := wellFormed.user
    have he' : IsEscape (ContentRules.bare e .ends [':']).escape := he
    have content : Token.renderAll ts ++ (breaksText breaks ++ groupText group) =
        e :: c :: d :: (t ++ u) := by simpa [Literal.render_eq, Quote.mark] using text
    have notBlank := head_notBlank_behind_escaped he' (by simp [ContentRules.bare]) isWord nonempty
      rest content
    rw [hd] at notBlank
    cases notBlank

/-- Of a text that opens wide, what stands before the position reported is no beginning of an owner:
it goes on at least as far as the white space does. -/
theorem not_beginsOwner_of_opensWide (he : IsEscape e) {text before : Text} {failure : Failure}
    (opens : opensWide e text = true)
    (refused : complete (Grammar.owner e) text = .error failure) (isPrefix : before <+: text)
    (position : failure.position = Position.start.after before) : ¬ BeginsOwner e before := by
  obtain ⟨gap, r, rfl, blank, wide, stop, missing⟩ := exists_of_opensWide opens
  have reached : Reaches (toTheEnd (Grammar.owner e)) (e :: (gap ++ r)) (e :: gap) :=
    (reaches_owner blank stop missing he).bind
  obtain ⟨f, hf, far⟩ := reached (.start (e :: (gap ++ r))) rfl
  obtain rfl : f = failure := Option.some.inj (hf.symm.trans (furthest_of_complete refused))
  rw [position] at far
  obtain ⟨v, rfl⟩ := Position.prefix_of_not_after_lt isPrefix ⟨r, rfl⟩ far
  obtain ⟨c, d, gap, rfl⟩ : ∃ c d gap', gap = c :: d :: gap' := by
    rcases gap with _ | ⟨c, _ | ⟨d, gap⟩⟩
    · cases wide
    · simp at wide
    · exact ⟨c, d, gap, rfl⟩
  exact not_beginsOwner he (blank d (by simp))

/-- The position reported of a refused text is that of the first character with which no owner goes
on, unless the text opens wide: what stands before the position is a beginning of an owner exactly
if it does not. -/
theorem fails_behind_owner_iff (he : IsEscape e) {text : Text} {error : Error}
    (refused : parse e text = .error error) :
    ∃ failure before, error = .parse failure ∧ before <+: text ∧
      failure.position = Position.start.after before ∧
      ((∃ behind o, parse e (before ++ behind) = .ok o) ↔ opensWide e text = false) := by
  obtain ⟨failure, refused', rfl⟩ := readAll_eq_error.mp refused
  have whole (o : Owner) (m : Text) (read : run (Grammar.owner e) text = some (o, m)) :
      BeginsOwner e o.render ∨ WideMark e text o.render :=
    .inl ⟨o, [], wellFormed_of_run read, (List.append_nil _).symm⟩
  obtain ⟨before, isPrefix, begins, position⟩ :=
    (failsBehind_owner he).of_complete (lossless_owner e) whole refused'
  refine ⟨failure, before, rfl, isPrefix, position, ?_⟩
  rw [← beginsOwner_iff he]
  constructor
  · intro begins
    rw [← Bool.not_eq_true]
    intro opens
    exact not_beginsOwner_of_opensWide he opens refused' isPrefix position begins
  · intro narrow
    rcases begins with begins | wide
    · exact begins
    · rw [opensWide_of_wideMark wide isPrefix] at narrow
      cases narrow

/-- `a b` is refused, and what stands before the position reported begins an owner. -/
theorem fails_behind_owner_iff_sample :
    ∃ failure before, parse '\\' ['a', ' ', 'b'] = .error (.parse failure) ∧
      before <+: ['a', ' ', 'b'] ∧ failure.position = Position.start.after before ∧
      ∃ behind o, parse '\\' (before ++ behind) = .ok o := by
  obtain ⟨error, refused⟩ :=
    exists_of_not_isOk (x := parse '\\' ['a', ' ', 'b']) (by decide +kernel)
  obtain ⟨failure, before, rfl, isPrefix, position, viable⟩ :=
    fails_behind_owner_iff (.inl rfl) refused
  exact ⟨failure, before, refused, isPrefix, position, viable.mpr (by decide)⟩

/-- An escape character, two blanks and a letter are refused at the letter, but no owner begins with
an escape character and two blanks. -/
theorem white_space_passed_over :
    ∃ failure, parse '\\' ['\\', ' ', ' ', 'x'] = .error (.parse failure) ∧
      failure.position = Position.start.after ['\\', ' ', ' '] ∧
      ¬ ∃ behind o, parse '\\' (['\\', ' ', ' '] ++ behind) = .ok o := by
  obtain ⟨error, refused⟩ :=
    exists_of_not_isOk (x := parse '\\' ['\\', ' ', ' ', 'x']) (by decide +kernel)
  obtain ⟨failure, refused', rfl⟩ := readAll_eq_error.mp refused
  refine ⟨failure, refused, ?_, ?_⟩
  · have onRecord : ((resultCursor (toTheEnd (Grammar.owner '\\')
        (.start ['\\', ' ', ' ', 'x']))).furthest.map Failure.position) =
          some (Position.start.after ['\\', ' ', ' ']) := by
      decide +kernel
    rw [furthest_of_complete refused'] at onRecord
    exact Option.some.inj onRecord
  · rw [← beginsOwner_iff (.inl rfl)]
    exact not_beginsOwner (.inl rfl) (by decide)

end Owner

end DockerfileSyntax
