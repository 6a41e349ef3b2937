import DockerfileSyntax.Proofs.Edits

/-!
# Reading an owner back

A text reads as an owner if and only if the owner is well formed and renders to the text:
`Owner.parse_eq_ok_iff`. The user ends before the colon and before the line continuations in front
of it, whatever the user is, and so the two parts of an owner are independent of each other.
-/

namespace DockerfileSyntax

open Grammar DockerfileSyntax.Parser

/-! ## The end of the user -/

/-- No part of an owner goes on behind line continuations, if none goes on behind what follows
them. -/
theorem Literal.endsBefore_breaks {e : Char} (he : IsEscape e) (l : Literal)
    {breaks : List Continuation} (all : ∀ k ∈ breaks, k.IsBreak e) {r : Text}
    (boundary : Boundary l.children r) (unbroken : run (continuation e) r = none)
    (stop : run (unit (content (.word e)) (.bare e .ends [':'])) r = none) :
    l.EndsBefore e .ends [':'] (breaksText breaks ++ r) := by
  intro _
  refine ⟨?_, run_unit_of_breaks all unbroken stop⟩
  cases breaks with
  | nil => exact boundary
  | cons k breaks =>
    obtain ⟨gap, ending, -, -, rfl⟩ := all k List.mem_cons_self
    rw [breaksText_cons, render_broken]
    exact boundary_cons he.not_isVariableNameChar he.ne_openingBrace he.not_isInlineBlank
      he.not_isLineEnd l.children _

/-- No user goes on behind the line continuations before the colon, or behind the colon. -/
theorem Literal.endsBefore_colon {e : Char} (he : IsEscape e) (l : Literal)
    {breaks : List Continuation} (all : ∀ k ∈ breaks, k.IsBreak e) (r : Text) :
    l.EndsBefore e .ends [':'] (breaksText breaks ++ ':' :: r) := by
  have notEscape : ':' ≠ e := by rcases he with rfl | rfl <;> decide
  refine l.endsBefore_breaks he all ?_ ?_ ?_
  · exact boundary_cons (by decide) (by decide) (by decide) (by decide) l.children r
  · exact run_continuation_of_head_ne fun hc => notEscape (Option.some.inj hc)
  · exact run_unit_of_excluded (by simp [ContentRules.bare]) notEscape (by decide)

namespace Owner

variable {e : Char} {o : Owner}

/-- The parts of the owner are literals as an owner may have them, and only line continuations
stand around the colon; without a colon there are none. -/
structure WellFormed (e : Char) (o : Owner) : Prop where
  escape : o.escape = e
  user : o.user.WellFormed e .ends [':']
  before : ∀ k ∈ o.breaks, k.IsBreak e
  alone : o.group = none → o.breaks = []
  group : ∀ after group, o.group = some (after, group) →
    (∀ k ∈ after, k.IsBreak e) ∧ group.WellFormed e .ends [':']

/-! ## The text of an owner -/

/-- The text of the colon and the group. -/
def groupText : Option (List Continuation × Literal) → Text
  | none => []
  | some (breaks, group) => ':' :: (breaksText breaks ++ group.render)

theorem render_eq (o : Owner) :
    o.render = o.user.render ++ (breaksText o.breaks ++ groupText o.group) := by
  obtain ⟨user, breaks, group, escape⟩ := o
  rcases group with _ | ⟨after, group⟩ <;>
    simp [render, tokens, groupTokens, groupText, Literal.render, breaksText]

/-! ## Reading -/

theorem run_ownerGroup_eq_some {s r : Text} {before after : List Continuation} {group : Literal} :
    run (ownerGroup e) s = some ((before, after, group), r) ↔
      ∃ m m', run (continuations e) s = some (before, ':' :: m) ∧
        run (continuations e) m = some (after, m') ∧
        run (ownerPart e) m' = some (group, r) := by
  rw [ownerGroup]
  constructor
  · intro h
    obtain ⟨found, m, hb, h⟩ := run_bind_eq_some.mp h
    obtain ⟨u, m', hc, h⟩ := run_bind_eq_some.mp h
    obtain ⟨found', m₂, ha, h⟩ := run_bind_eq_some.mp h
    obtain ⟨found₂, m₃, hg, h⟩ := run_bind_eq_some.mp h
    obtain ⟨eq, rfl⟩ := run_pure_eq_some.mp h
    cases eq
    obtain rfl := run_eat_eq_some.mp hc
    exact ⟨m', m₂, hb, ha, hg⟩
  · rintro ⟨m, m', hb, ha, hg⟩
    refine run_bind_eq_some.mpr ⟨before, _, hb, ?_⟩
    refine run_bind_eq_some.mpr ⟨(), m, run_eat_append [':'] m, ?_⟩
    refine run_bind_eq_some.mpr ⟨after, m', ha, ?_⟩
    exact run_bind_eq_some.mpr ⟨group, r, hg, rfl⟩

theorem run_owner_eq_some {s r : Text} :
    run (Grammar.owner e) s = some (o, r) ↔
      ∃ user m, run (ownerPart e) s = some (user, m) ∧
        ((∃ before group, run (ownerGroup e) m = some ((before, group), r) ∧
            o = ⟨user, before, some group, e⟩) ∨
          (run (ownerGroup e) m = none ∧ r = m ∧ o = ⟨user, [], none, e⟩)) := by
  rw [Grammar.owner]
  constructor
  · intro h
    obtain ⟨user, m, hu, h⟩ := run_bind_eq_some.mp h
    refine ⟨user, m, hu, ?_⟩
    rcases run_optional_bind_eq_some.mp h with ⟨⟨before, group⟩, m', hg, h⟩ | ⟨hg, h⟩
    · obtain ⟨rfl, rfl⟩ := run_pure_eq_some.mp h
      exact .inl ⟨before, group, hg, rfl⟩
    · obtain ⟨rfl, rfl⟩ := run_pure_eq_some.mp h
      exact .inr ⟨hg, rfl, rfl⟩
  · rintro ⟨user, m, hu, ⟨before, group, hg, rfl⟩ | ⟨hg, rfl, rfl⟩⟩
    · refine run_bind_eq_some.mpr ⟨user, m, hu, run_optional_bind_eq_some.mpr ?_⟩
      exact .inl ⟨(before, group), r, hg, rfl⟩
    · refine run_bind_eq_some.mpr ⟨user, r, hu, run_optional_bind_eq_some.mpr ?_⟩
      exact .inr ⟨hg, rfl⟩

theorem parse_eq_ok {s : Text} : parse e s = .ok o ↔ run (Grammar.owner e) s = some (o, []) :=
  readAll_eq_ok.trans complete_eq_ok

/-- What is read as an owner is well formed. -/
theorem wellFormed_of_run {s r : Text} (h : run (Grammar.owner e) s = some (o, r)) :
    o.WellFormed e := by
  obtain ⟨user, m, hu, ⟨before, ⟨after, group⟩, hg, rfl⟩ | ⟨-, -, rfl⟩⟩ := run_owner_eq_some.mp h
  · obtain ⟨m', m₂, hb, ha, hg⟩ := run_ownerGroup_eq_some.mp hg
    have isUser : user.WellFormed e .ends [':'] := run_literal_sound (by decide) hu
    have isGroup : group.WellFormed e .ends [':'] := run_literal_sound (by decide) hg
    refine ⟨rfl, isUser, (run_continuations_eq_some.mp hb).1, nofun, ?_⟩
    intro after' group' same
    cases same
    exact ⟨(run_continuations_eq_some.mp ha).1, isGroup⟩
  · exact ⟨rfl, run_literal_sound (by decide) hu, by simp, fun _ => rfl, nofun⟩

theorem wellFormed_of_parse {s : Text} (h : parse e s = .ok o) : o.WellFormed e :=
  wellFormed_of_run (parse_eq_ok.mp h)

/-- A well-formed group is read behind the user. -/
theorem run_ownerGroup_of_wellFormed (he : IsEscape e) {before after : List Continuation}
    {group : Literal} (hb : ∀ k ∈ before, k.IsBreak e) (ha : ∀ k ∈ after, k.IsBreak e)
    (hg : group.WellFormed e .ends [':']) :
    run (ownerGroup e) (breaksText before ++ groupText (some (after, group))) =
      some ((before, after, group), []) := by
  have notEscape : ':' ≠ e := by rcases he with rfl | rfl <;> decide
  have first : run (continuations e) (breaksText before ++ groupText (some (after, group))) =
      some (before, groupText (some (after, group))) :=
    run_continuations_eq_some.mpr ⟨hb, rfl,
      run_continuation_of_head_ne fun hc => notEscape (Option.some.inj hc)⟩
  have second : run (continuations e) (breaksText after ++ group.render) =
      some (after, group.render) :=
    run_continuations_eq_some.mpr ⟨ha, rfl, hg.unbroken he⟩
  have last := run_literal_of_wellFormed he (by decide) hg group.endsBefore_nil
  rw [List.append_nil] at last
  exact run_ownerGroup_eq_some.mpr ⟨_, _, first, second, last⟩

/-- A well-formed owner is read back as it is. -/
theorem WellFormed.parse_render (he : IsEscape e) (h : o.WellFormed e) :
    parse e o.render = .ok o := by
  rw [parse_eq_ok, render_eq, run_owner_eq_some]
  obtain ⟨user, before, group, escape⟩ := o
  obtain rfl : escape = e := h.escape
  rcases group with _ | ⟨after, group⟩
  · obtain rfl : before = [] := h.alone rfl
    have read := run_literal_of_wellFormed he (by decide) h.user user.endsBefore_nil
    refine ⟨user, [], read, .inr ⟨?_, rfl, rfl⟩⟩
    rw [Option.eq_none_iff_forall_ne_some]
    rintro ⟨⟨before, after, group⟩, r⟩ hr
    have whole : [] = _ ++ r := (lossless_ownerGroup escape).append_eq hr
    simp [groupTokens] at whole
  · have read := run_literal_of_wellFormed he (by decide) h.user
      (user.endsBefore_colon he h.before (breaksText after ++ group.render))
    obtain ⟨isBreak, isGroup⟩ := h.group after group rfl
    have rest := run_ownerGroup_of_wellFormed he h.before isBreak isGroup
    exact ⟨user, _, read, .inl ⟨before, _, rest, rfl⟩⟩

/-- The grammar of owners is exact: a text reads as an owner if and only if the owner is well formed
and renders to the text. -/
theorem parse_eq_ok_iff (he : IsEscape e) {text : Text} :
    parse e text = .ok o ↔ o.render = text ∧ o.WellFormed e := by
  constructor
  · intro h
    exact ⟨(lossless_owner e).text_eq (readAll_eq_ok.mp h), wellFormed_of_parse h⟩
  · rintro ⟨rfl, wellFormed⟩
    exact wellFormed.parse_render he

/-! ## The tokens of owners -/

/-- By itself, the text of the literal reads as this literal, and so as a part of an owner. -/
def IsPart (e : Char) (l : Literal) : Prop :=
  complete (literal e .ends [':']) l.render = .ok l

/-- The lists of tokens that are owners: a user alone, or a user and a group around a colon, with
any number of line continuations on either side of the colon. -/
inductive IsOwner (e : Char) : List Token → Prop
  | alone {user : Literal} : IsPart e user → IsOwner e [user.toToken]
  | grouped {user group : Literal} {before after : List Continuation} :
      IsPart e user → (∀ k ∈ before, k.IsBreak e) → (∀ k ∈ after, k.IsBreak e) →
      IsPart e group →
      IsOwner e (user.toToken :: (before.map Continuation.toToken ++
        .symbol [':'] :: (after.map Continuation.toToken ++ [group.toToken])))

theorem isPart_iff (he : IsEscape e) {l : Literal} : IsPart e l ↔ l.WellFormed e .ends [':'] :=
  (complete_literal_eq_ok he (by decide)).trans (and_iff_right rfl)

theorem WellFormed.isOwner (he : IsEscape e) (h : o.WellFormed e) : IsOwner e o.tokens := by
  obtain ⟨user, before, group, escape⟩ := o
  have isUser : IsPart e user := (isPart_iff he).mpr h.user
  rcases group with _ | ⟨after, group⟩
  · obtain rfl : before = [] := h.alone rfl
    exact .alone isUser
  · obtain ⟨isBreak, isGroup⟩ := h.group after group rfl
    have tokens : tokens ⟨user, before, some (after, group), escape⟩ =
        user.toToken :: (before.map Continuation.toToken ++
          .symbol [':'] :: (after.map Continuation.toToken ++ [group.toToken])) := by
      simp [Owner.tokens, groupTokens]
    rw [tokens]
    exact .grouped isUser h.before isBreak ((isPart_iff he).mpr isGroup)

theorem IsOwner.exists_wellFormed (he : IsEscape e) {ts : List Token} (h : IsOwner e ts) :
    ∃ o : Owner, o.WellFormed e ∧ o.tokens = ts := by
  cases h with
  | @alone user isUser =>
    exact ⟨⟨user, [], none, e⟩,
      ⟨rfl, (isPart_iff he).mp isUser, by simp, fun _ => rfl, nofun⟩, rfl⟩
  | @grouped user group before after isUser isBreak isBreak' isGroup =>
    refine ⟨⟨user, before, some (after, group), e⟩,
      ⟨rfl, (isPart_iff he).mp isUser, isBreak, nofun, ?_⟩, by simp [tokens, groupTokens]⟩
    intro after' group' same
    cases same
    exact ⟨isBreak', (isPart_iff he).mp isGroup⟩

/-- The grammar of owners, token by token: a text reads as a list of tokens if and only if the list
renders to the text and is an owner. And it is unambiguous: a text is that of one owner at most, so
that a line continuation before the colon is never part of the user. -/
theorem parse_tokens_iff (he : IsEscape e) :
    (∀ (text : Text) (ts : List Token), (∃ o, parse e text = .ok o ∧ o.tokens = ts) ↔
      Token.renderAll ts = text ∧ IsOwner e ts) ∧
    ∀ ts ts' : List Token, IsOwner e ts → IsOwner e ts' →
      Token.renderAll ts = Token.renderAll ts' → ts = ts' := by
  have exactly (text : Text) (ts : List Token) : (∃ o, parse e text = .ok o ∧ o.tokens = ts) ↔
      Token.renderAll ts = text ∧ IsOwner e ts := by
    constructor
    · rintro ⟨o, h, rfl⟩
      obtain ⟨whole, wellFormed⟩ := (parse_eq_ok_iff he).mp h
      exact ⟨whole, wellFormed.isOwner he⟩
    · rintro ⟨rfl, isOwner⟩
      obtain ⟨o, wellFormed, rfl⟩ := isOwner.exists_wellFormed he
      exact ⟨o, wellFormed.parse_render he, rfl⟩
  refine ⟨exactly, fun ts ts' h h' same => ?_⟩
  -- both are what the text of the second one reads as
  obtain ⟨o, read, rfl⟩ := (exactly _ ts).mpr ⟨same, h⟩
  obtain ⟨o', read', rfl⟩ := (exactly _ ts').mpr ⟨rfl, h'⟩
  rw [Except.ok.inj (read.symm.trans read')]

/-- A line continuation within the user belongs to it, and one behind it does not. -/
theorem parse_tokens_iff_sample :
    (∃ o, parse '`' "us`\ner`\n:g".toList = .ok o ∧ o.tokens =
      [.literal none [.string ['u', 's'], .continuation [.symbol ['`'], .newLine ['\n']],
          .string ['e', 'r']],
        .continuation [.symbol ['`'], .newLine ['\n']], .symbol [':'],
        .literal none [.string ['g']]]) ∧
    ∀ ts : List Token, IsOwner '`' ts → Token.renderAll ts = "us`\ner`\n:g".toList → ts =
      [.literal none [.string ['u', 's'], .continuation [.symbol ['`'], .newLine ['\n']],
          .string ['e', 'r']],
        .continuation [.symbol ['`'], .newLine ['\n']], .symbol [':'],
        .literal none [.string ['g']]] := by
  obtain ⟨exactly, unambiguous⟩ := parse_tokens_iff (e := '`') (.inr rfl)
  have isPart {l : Literal}
      (h : (complete (literal '`' .ends [':']) l.render).toOption = some l) : IsPart '`' l :=
    eq_ok_of_toOption h
  have isOwner := @IsOwner.grouped '`'
    ⟨none, [.string ['u', 's'], .continuation [.symbol ['`'], .newLine ['\n']],
      .string ['e', 'r']]⟩
    ⟨none, [.string ['g']]⟩ [.broken '`' [] ['\n']] [] (isPart (by decide +kernel))
    (List.forall_mem_singleton.mpr ⟨[], ['\n'], by simp, by decide, rfl⟩) (by simp)
    (isPart (by decide +kernel))
  exact ⟨(exactly _ _).mpr ⟨rfl, isOwner⟩,
    fun ts h same => unambiguous ts _ h isOwner (same.trans rfl)⟩

end Owner

end DockerfileSyntax
