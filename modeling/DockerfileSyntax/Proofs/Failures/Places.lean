import DockerfileSyntax.Proofs.Failures.Furthest
import DockerfileSyntax.Proofs.Lossless.Grammar

/-!
# Where failures lie

`FailsBehind p s V` bounds the record of a run from above: whatever `p` adds to it where `s` is left
lies behind a beginning of `s` of which `V` holds. Lookahead and abandoned alternatives count.
`Reaches p s t` bounds it from below: behind a run of `p` the record lies at least behind `t`. Both
have one rule for each combinator.
-/

namespace DockerfileSyntax

namespace Parser

variable {α β : Type} {p q : Parser α} {s t : Text} {V W : Text → Prop}

/-- A run of a lossless parser goes past the text of its result. -/
theorem Keeps.of_ok [Regular p] {text : α → Text} (lossless : Lossless p text) {c d : Cursor}
    {a : α} (h : p c = .ok a d) :
    run p c.rest = some (a, d.rest) ∧ c.rest = text a ++ d.rest ∧
      d.position = c.position.after (text a) := by
  obtain ⟨read, t, split, place⟩ := Regular.of_ok h
  have whole : c.rest = text a ++ d.rest := lossless.append_eq read
  obtain rfl : t = text a := List.append_cancel_right (split.symm.trans whole)
  exact ⟨read, whole, congrArg Place.position place⟩

/-! Going back leaves the record as it is. -/

theorem furthest_attempt (p : Parser α) (c : Cursor) :
    (resultCursor (attempt p c)).furthest = (resultCursor (p c)).furthest := by
  unfold attempt
  cases p c <;> rfl

theorem furthest_optional (p : Parser α) (c : Cursor) :
    (resultCursor (optional p c)).furthest = (resultCursor (p c)).furthest := by
  rw [← furthest_attempt p]
  unfold optional
  cases attempt p c <;> rfl

theorem furthest_sees (p : Parser α) (c : Cursor) :
    (resultCursor (sees p c)).furthest = (resultCursor (p c)).furthest := by
  unfold sees
  cases p c <;> rfl

/-! ## How far failures may lie -/

/-- What a run of `p` records where `s` is left lies behind a beginning of `s` that `V` holds of. -/
def FailsBehind (p : Parser α) (s : Text) (V : Text → Prop) : Prop :=
  ∀ c : Cursor, c.rest = s → ∀ f, (resultCursor (p c)).furthest = some f →
    c.furthest = some f ∨ ∃ t, t <+: s ∧ V t ∧ f.position = c.position.after t

namespace FailsBehind

theorem mono (h : FailsBehind p s V) (imp : ∀ t, t <+: s → V t → W t) : FailsBehind p s W := by
  intro c hc f hf
  rcases h c hc f hf with same | ⟨t, isPrefix, holds, position⟩
  · exact .inl same
  · exact .inr ⟨t, isPrefix, imp t isPrefix holds, position⟩

/-- What a parser records behind `v`, seen from before it. -/
theorem behind {c d : Cursor} {v : Text} (h : FailsBehind p d.rest fun u => V (v ++ u))
    (whole : c.rest = v ++ d.rest) (place : d.position = c.position.after v) {f : Failure}
    (hf : (resultCursor (p d)).furthest = some f) :
    d.furthest = some f ∨ ∃ t, t <+: c.rest ∧ V t ∧ f.position = c.position.after t := by
  rcases h d rfl f hf with same | ⟨u, isPrefix, holds, position⟩
  · exact .inl same
  · refine .inr ⟨v ++ u, ?_, holds, ?_⟩
    · rw [whole]
      exact (List.prefix_append_right_inj v).mpr isPrefix
    · rw [position, place, Position.after_append]

/-- A parser behind another one: its failures lie behind what the first one has read. -/
theorem bind [Regular p] {text : α → Text} (lossless : Lossless p text) {f : α → Parser β}
    (h : FailsBehind p s V)
    (h' : ∀ a m, run p s = some (a, m) → s = text a ++ m →
      FailsBehind (f a) m fun u => V (text a ++ u)) :
    FailsBehind (p >>= f) s V := by
  rintro c rfl g hg
  have first := h c rfl
  rw [bind_apply] at hg
  cases hp : p c with
  | error e d =>
    rw [hp] at hg first
    exact first g hg
  | ok a d =>
    rw [hp] at hg first
    obtain ⟨read, whole, place⟩ := lossless.of_ok hp
    rcases (h' a d.rest read whole).behind whole place hg with same | behind
    · exact first g same
    · exact .inr behind

/-- Making a value of what has been read records nothing. -/
theorem andPure (h : FailsBehind p s V) (f : α → β) :
    FailsBehind (p >>= fun a => pure (f a)) s V := by
  intro c hc g hg
  have ran := h c hc g
  rw [bind_apply] at hg
  cases hp : p c <;> rw [hp] at hg ran <;> exact ran hg

theorem attempt (h : FailsBehind p s V) : FailsBehind (attempt p) s V :=
  fun c hc f hf => h c hc f ((furthest_attempt p c).symm.trans hf)

theorem optional (h : FailsBehind p s V) : FailsBehind (optional p) s V :=
  fun c hc f hf => h c hc f ((furthest_optional p c).symm.trans hf)

theorem sees (h : FailsBehind p s V) : FailsBehind (sees p) s V :=
  fun c hc f hf => h c hc f ((furthest_sees p c).symm.trans hf)

/-- Behind an optional parser, the way on is the one for what it has read or the one for nothing. -/
theorem bind_optional [Regular p] {text : α → Text} (lossless : Lossless p text)
    {f : Option α → Parser β} (h : FailsBehind p s V)
    (some : ∀ a m, run p s = .some (a, m) → s = text a ++ m →
      FailsBehind (f (.some a)) m fun u => V (text a ++ u))
    (none : run p s = .none → FailsBehind (f .none) s V) :
    FailsBehind (Parser.optional p >>= f) s V := by
  refine h.optional.bind lossless.optional fun o m ho split => ?_
  rcases run_optional_eq_some.mp ho with ⟨a, rfl, ha⟩ | ⟨rfl, rfl, ha⟩
  · exact some a m ha split
  · exact none ha

theorem firstOf_pair (h : FailsBehind p s V) (h' : FailsBehind q s V) :
    FailsBehind (firstOf [p, q]) s V := by
  intro c hc f hf
  have first := h.attempt c hc
  rw [firstOf_cons_cons] at hf
  cases hp : Parser.attempt p c with
  | ok a d =>
    rw [hp] at hf first
    exact first f hf
  | error e d =>
    rw [hp] at hf first
    have place : d.toPlace = c.toPlace := attempt_error_toPlace hp
    rcases h'.attempt d (by rw [place, hc]) f hf with same | behind
    · exact first f same
    · rw [place] at behind
      exact .inr behind

/-- A parser again and again: its failures lie behind what all the times before have read. -/
theorem many [Regular p] {text : α → Text} (lossless : Lossless p text) {s : Text}
    {V : Text → Prop}
    (h : ∀ items m, Steps p s items m → FailsBehind p m fun u => V (items.flatMap text ++ u)) :
    FailsBehind (many p) s V := by
  rintro c rfl f hf
  have out : resultCursor (Parser.many p c) = (repeatFrom p c).2 := rfl
  have first := (h [] c.rest (.nil c.rest)).attempt c rfl
  rw [out, repeatFrom_eq] at hf
  cases hp : Parser.attempt p c with
  | error e d =>
    rw [hp] at hf first
    exact first f hf
  | ok a d =>
    rw [hp] at hf first
    by_cases shorter : d.left < c.left
    · simp only [shorter, if_true, Prod.map_snd, id_eq] at hf
      obtain ⟨read, whole, place⟩ := lossless.attempt.of_ok hp
      rw [run_attempt] at read
      -- what is left is shorter, and a step from there is a step from here
      have less : d.rest.length < c.rest.length := by rwa [d.left_eq, c.left_eq] at shorter
      have others : FailsBehind (Parser.many p) d.rest fun u => V (text a ++ u) := by
        refine many lossless fun items m steps => ?_
        have := h (a :: items) m (.cons read less steps)
        simpa only [List.flatMap_cons, List.append_assoc] using this
      rcases others.behind whole place hf with same | behind
      · exact first f same
      · exact .inr behind
    · simp only [shorter, if_false] at hf
      exact first f hf
termination_by s.length

end FailsBehind

/-! ## Parsers that look at the text themselves -/

theorem furthestOf_eq_some {o : Option Failure} {f g : Failure} (h : furthestOf o f = some g) :
    o = some g ∨ g = f := by
  cases o with
  | none => exact .inr (Option.some.inj h).symm
  | some k =>
    rw [furthestOf] at h
    split at h
    · exact .inr (Option.some.inj h).symm
    · exact .inl h

theorem failsBehind_fail (what : Expectation) (here : V []) :
    FailsBehind (fail what : Parser α) s V := by
  intro c hc f hf
  have recorded : furthestOf c.furthest (c.failure what) = some f := by
    rw [← record_furthest]
    exact hf
  rcases furthestOf_eq_some recorded with same | rfl
  · exact .inl same
  · exact .inr ⟨[], List.nil_prefix, here, rfl⟩

theorem failsBehind_pure (a : α) : FailsBehind (pure a) s V := fun _ _ _ hf => .inl hf

theorem failsBehind_takeWhile (holds : Char → Bool) : FailsBehind (takeWhile holds) s V :=
  fun _ _ _ hf => .inl hf

theorem failsBehind_satisfy (what : Expectation) (holds : Char → Bool) (here : V []) :
    FailsBehind (satisfy what holds) s V := by
  intro c hc f hf
  have failed := failsBehind_fail (α := Char) what here c hc f
  unfold satisfy at hf
  split at hf
  · exact failed hf
  · split at hf
    · exact .inl hf
    · exact failed hf

theorem failsBehind_eat (text : Text) (here : V []) : FailsBehind (eat text) s V := by
  intro c hc f hf
  unfold eat at hf
  split at hf
  · exact .inl hf
  · exact failsBehind_fail (α := Unit) _ here c hc f hf

theorem failsBehind_choose (what : Expectation) (spelling : α → Text) (options : List α)
    (here : run (choose what spelling options) s = none → V []) :
    FailsBehind (choose what spelling options) s V := by
  intro c hc f hf
  unfold choose at hf
  split at hf
  · exact .inl hf
  · next no =>
    rw [run_choose, ← hc, no] at here
    exact failsBehind_fail (α := α) what (here rfl) c hc f hf

theorem failsBehind_endOfInput (here : V []) : FailsBehind endOfInput s V := by
  intro c hc f hf
  unfold endOfInput at hf
  split at hf
  · exact .inl hf
  · next found rest _ =>
    rw [resultCursor, record_furthest] at hf
    rcases furthestOf_eq_some hf with same | rfl
    · exact .inl same
    · exact .inr ⟨[], List.nil_prefix, here, rfl⟩

/-- The failure reported of a text lies behind a beginning of which `V` holds, if that holds of what
is read before trailing input. -/
theorem FailsBehind.of_complete [Regular p] [Recorded p] {text : α → Text}
    (lossless : Lossless p text) (h : FailsBehind p s V)
    (whole : ∀ a m, run p s = some (a, m) → V (text a)) {failure : Failure}
    (hr : complete p s = .error failure) :
    ∃ t, t <+: s ∧ V t ∧ failure.position = Position.start.after t := by
  have toTheEnd : FailsBehind (toTheEnd p) s V := by
    refine h.bind lossless fun a m read _ => (failsBehind_endOfInput ?_).andPure fun _ => a
    rw [List.append_nil]
    exact whole a m read
  rcases toTheEnd (.start s) rfl failure (furthest_of_complete hr) with none | behind
  · cases none
  · exact behind

/-! ## How far the record reaches -/

/-- Behind a run of `p` where `s` is left, a failure is on record that lies behind `t` or further
on. -/
def Reaches (p : Parser α) (s t : Text) : Prop :=
  ∀ c : Cursor, c.rest = s →
    ∃ f, (resultCursor (p c)).furthest = some f ∧ ¬ f.position < c.position.after t

/-- The record does not go back. -/
theorem exists_furthest_of_recorded (p : Parser α) [hp : Recorded p] {c : Cursor} {g : Failure}
    (h : c.furthest = some g) :
    ∃ f, (resultCursor (p c)).furthest = some f ∧ ¬ f.position < g.position := by
  obtain ⟨log, records⟩ := hp.exists_log
  obtain ⟨f, hf⟩ := exists_foldl_furthestOf_some (log c) g
  refine ⟨f, by rw [(records.tells c).furthest, h, hf], ?_⟩
  rcases foldl_furthestOf_some hf with ⟨rfl, -⟩ | ⟨-, -, -, further, -⟩
  · exact Position.lt_irrefl _
  · exact Position.lt_asymm further

namespace Reaches

/-- What has been reached stays reached. -/
theorem bind {f : α → Parser β} [∀ a, Recorded (f a)] (h : Reaches p s t) :
    Reaches (p >>= f) s t := by
  intro c hc
  obtain ⟨g, hg, far⟩ := h c hc
  rw [bind_apply]
  cases hp : p c with
  | error e d =>
    rw [hp] at hg
    exact ⟨g, hg, far⟩
  | ok a d =>
    rw [hp] at hg
    obtain ⟨f', hf', further⟩ := exists_furthest_of_recorded (f a) hg
    exact ⟨f', hf', fun less => far (Position.lt_of_not_lt_of_lt further less)⟩

/-- What is reached behind what has been read. -/
theorem bind_of_run [Regular p] {text : α → Text} (lossless : Lossless p text) {f : α → Parser β}
    {a : α} {m : Text} (read : run p s = some (a, m)) (h : Reaches (f a) m t) :
    Reaches (p >>= f) s (text a ++ t) := by
  rintro c rfl
  obtain ⟨d, hd, rest, -⟩ := Regular.ok_of_run read
  obtain ⟨-, -, place⟩ := lossless.of_ok hd
  rw [bind_apply, hd, Position.after_append, ← place]
  exact h d rest

theorem attempt (h : Reaches p s t) : Reaches (attempt p) s t := by
  intro c hc
  obtain ⟨f, hf, far⟩ := h c hc
  exact ⟨f, (furthest_attempt p c).trans hf, far⟩

theorem sees (h : Reaches p s t) : Reaches (sees p) s t := by
  intro c hc
  obtain ⟨f, hf, far⟩ := h c hc
  exact ⟨f, (furthest_sees p c).trans hf, far⟩

end Reaches

theorem reaches_fail (what : Expectation) : Reaches (fail what : Parser α) s [] := by
  intro c hc
  have recorded : (resultCursor ((fail what : Parser α) c)).furthest =
      furthestOf c.furthest (c.failure what) := record_furthest c _
  rw [recorded, Position.after_nil]
  cases c.furthest with
  | none => exact ⟨_, rfl, Position.lt_irrefl _⟩
  | some g =>
    by_cases further : g.position < c.position
    · exact ⟨c.failure what, if_pos further, Position.lt_irrefl _⟩
    · exact ⟨g, if_neg further, further⟩

theorem reaches_choose {what : Expectation} {spelling : α → Text} {options : List α}
    (missing : run (choose what spelling options) s = none) :
    Reaches (choose what spelling options) s [] := by
  intro c hc
  have failed : choose what spelling options c = (fail what : Parser α) c := by
    rw [run_choose, Option.map_eq_none_iff, ← hc] at missing
    rw [choose, missing]
  rw [failed]
  exact reaches_fail what c hc

end Parser

end DockerfileSyntax
