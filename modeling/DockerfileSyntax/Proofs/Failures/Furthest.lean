import DockerfileSyntax.Proofs.Failures.Grammar

/-!
# The failure reported is the furthest one

While a text is read, failures are recorded from lookahead, from alternatives that are given up and
from those that succeed later. The one that `complete` reports is the first of those that lie
furthest into the text, and it is true to the text: its line and column count what stands before
it, and it has found the character that stands there.

1. `foldl_furthestOf_eq_some`: the record kept is the first of the latest.
2. `Failure.standsAt_of_arisesAt`: a failure that arises at a place of a text points at it.
3. `reported_failure_is_furthest`: the two together, for every grammar that is built from primitives
   and combinators.
-/

namespace DockerfileSyntax

/-- The failure points at the place between the two parts of a text. -/
structure Failure.StandsAt (before rest : Text) (f : Failure) : Prop where
  line : f.position.line = 1 + before.count '\n'
  column : f.position.column = 1 + before.sinceLineEnd
  found : f.cause.found = rest.head?

/-- A failure that arises at a place of a text points at it. -/
theorem Failure.standsAt_of_arisesAt {text : Text} {place : Place} {f : Failure}
    (leads : (Place.start text).Leads place) (h : f.ArisesAt place) :
    ∃ before rest, text = before ++ rest ∧ f.position = Position.start.after before ∧
      f.StandsAt before rest := by
  obtain ⟨before, split, rfl⟩ := leads
  have position : f.position = Position.start.after before := h.position
  refine ⟨before, _, split, position, ?_, ?_, h.found⟩ <;>
    rw [position, Position.start_after]

namespace Failure.StandsAt

variable {before rest : Text} {f : Failure}

/-- A failure found nothing exactly at the end of the text. -/
theorem found_eq_none_iff (h : f.StandsAt before rest) : f.cause.found = none ↔ rest = [] := by
  rw [h.found, List.head?_eq_none_iff]

/-- Trailing input is found before the end of the text only. -/
theorem rest_ne_nil (h : f.StandsAt before rest) {c : Char} (hc : f.cause = .trailing c) :
    rest ≠ [] := by
  intro e
  have := h.found_eq_none_iff.mpr e
  rw [hc] at this
  cases this

end Failure.StandsAt

namespace Parser

variable {α : Type}

/-! ## The record kept -/

/-- The record kept is the first of the failures recorded furthest into the text, or the one before
them if none lies further. -/
theorem foldl_furthestOf_some {log : List Failure} {g f : Failure}
    (h : log.foldl furthestOf (some g) = some f) :
    (f = g ∧ ∀ k ∈ log, ¬ g.position < k.position) ∨
      ∃ earlier later, log = earlier ++ f :: later ∧ g.position < f.position ∧
        (∀ k ∈ earlier, k.position < f.position) ∧ ∀ k ∈ later, ¬ f.position < k.position := by
  induction log generalizing g with
  | nil =>
    cases h
    exact .inl ⟨rfl, by simp⟩
  | cons k log ih =>
    rw [List.foldl_cons, furthestOf] at h
    by_cases further : g.position < k.position
    · rw [if_pos further] at h
      rcases ih h with ⟨rfl, latest⟩ | ⟨earlier, later, rfl, beyond, before, latest⟩
      · exact .inr ⟨[], log, rfl, further, by simp, latest⟩
      · exact .inr ⟨k :: earlier, later, rfl, Position.lt_trans further beyond,
          List.forall_mem_cons.mpr ⟨beyond, before⟩, latest⟩
    · rw [if_neg further] at h
      rcases ih h with ⟨rfl, latest⟩ | ⟨earlier, later, rfl, beyond, before, latest⟩
      · exact .inl ⟨rfl, List.forall_mem_cons.mpr ⟨further, latest⟩⟩
      · exact .inr ⟨k :: earlier, later, rfl, beyond, List.forall_mem_cons.mpr
          ⟨Position.lt_of_not_lt_of_lt further beyond, before⟩, latest⟩

/-- Without a record before them, the record kept is the first of the latest. -/
theorem foldl_furthestOf_eq_some {log : List Failure} {f : Failure}
    (h : log.foldl furthestOf none = some f) :
    ∃ earlier later, log = earlier ++ f :: later ∧
      (∀ k ∈ earlier, k.position < f.position) ∧ ∀ k ∈ later, ¬ f.position < k.position := by
  cases log with
  | nil => cases h
  | cons g log =>
    rcases foldl_furthestOf_some h with
      ⟨rfl, latest⟩ | ⟨earlier, later, rfl, beyond, before, latest⟩
    · exact ⟨[], log, rfl, by simp, latest⟩
    · exact ⟨g :: earlier, later, rfl, List.forall_mem_cons.mpr ⟨beyond, before⟩, latest⟩

/-- Once there is a record, there is one. -/
theorem exists_foldl_furthestOf_some (log : List Failure) (g : Failure) :
    ∃ f, log.foldl furthestOf (some g) = some f := by
  induction log generalizing g with
  | nil => exact ⟨g, rfl⟩
  | cons k log ih =>
    rw [List.foldl_cons, furthestOf]
    split
    · exact ih k
    · exact ih g

theorem exists_foldl_furthestOf {log : List Failure} (h : log ≠ []) (o : Option Failure) :
    ∃ f, log.foldl furthestOf o = some f := by
  obtain ⟨g, log, rfl⟩ := List.exists_cons_of_ne_nil h
  cases o with
  | none => exact exists_foldl_furthestOf_some log g
  | some k =>
    rw [List.foldl_cons, furthestOf]
    split
    · exact exists_foldl_furthestOf_some log g
    · exact exists_foldl_furthestOf_some log k

/-! ## Whole texts -/

/-- What is recorded while the whole of a text is read: what the parser records and, behind it, what
the end of the text does. -/
def recordedIn (p : Parser α) (log : Log) (text : Text) : List Failure :=
  Log.andThen p log (fun _ => .ofResult endOfInput) (.start text)

/-- A parser and then the end of the text: what `complete` runs. -/
abbrev toTheEnd (p : Parser α) : Parser α := p >>= fun a => endOfInput >>= fun _ => pure a

/-- The failure reported is the one on record at the end. -/
theorem furthest_of_complete {p : Parser α} [hp : Recorded p] {text : Text} {failure : Failure}
    (hr : complete p text = .error failure) :
    (resultCursor (toTheEnd p (.start text))).furthest = some failure := by
  have whole : Recorded (toTheEnd p) := inferInstance
  obtain ⟨log, records⟩ := whole.exists_log
  have tells := records.tells (.start text)
  rw [complete, show (do let a ← p; endOfInput; return a) = toTheEnd p from rfl] at hr
  cases hd : toTheEnd p (.start text) with
  | ok a d =>
    rw [hd] at hr
    cases hr
  | error f d =>
    rw [hd] at hr tells
    obtain ⟨g, hg⟩ := exists_foldl_furthestOf (List.ne_nil_of_mem (tells.recorded f d rfl))
      (Cursor.start text).furthest
    have kept := tells.furthest.trans hg
    rw [resultCursor] at kept ⊢
    simp only [kept, Option.getD_some, Except.error.injEq] at hr
    rw [kept, hr]

/-- The failure reported is what the failures recorded make of no record. -/
theorem foldl_recordedIn {p : Parser α} {log : Log} (h : Records p log) {text : Text}
    {failure : Failure} (hr : complete p text = .error failure) :
    (recordedIn p log text).foldl furthestOf none = some failure ∧
      ∀ f ∈ recordedIn p log text, ∃ place, (Place.start text).Leads place ∧ f.ArisesAt place := by
  have whole : Records (toTheEnd p)
      (Log.andThen p log fun a => Log.andThen endOfInput (.ofResult endOfInput) fun _ =>
        .ofResult (pure a)) :=
    h.bind fun a => (Records.primitive .endOfInput).bind fun _ => .primitive (.pure a)
  have same : (Log.andThen p log fun a => Log.andThen endOfInput (.ofResult endOfInput) fun _ =>
      .ofResult (pure a : Parser α)) (.start text) = recordedIn p log text := by
    unfold recordedIn Log.andThen
    cases p (.start text) with
    | error f d => rfl
    | ok a d =>
      dsimp only
      cases endOfInput d <;> simp [Log.ofResult, pure, EStateM.pure]
  have tells := whole.tells (.start text)
  rw [same] at tells
  have recorded : Recorded p := ⟨log, h⟩
  exact ⟨tells.furthest.symm.trans (furthest_of_complete hr), tells.arises⟩

/-- What a failed reading reports. Every grammar that is built from primitives and combinators
has a log of the failures that it records. If it fails on a text, the failure reported stands at an
offset of the text: its line counts the line ends before, its column the characters since the last
of them, and it has found the character that stands there, none exactly at the end of the text. It
is one of the failures recorded; those recorded before it lie at smaller offsets, and those recorded
behind it at no greater ones. -/
theorem reported_failure_is_furthest :
    (∀ production : Production, ∃ log, Records production.parser log) ∧
    (∀ escape, (∃ log, Records (Grammar.arg escape) log) ∧
      ∃ log, Records (Grammar.owner escape) log) ∧
    ∀ {α : Type} (p : Parser α) (log : Log), Records p log →
      ∀ (text : Text) (failure : Failure), complete p text = .error failure →
        ∃ before rest earlier later, text = before ++ rest ∧ failure.StandsAt before rest ∧
          (failure.cause.found = none ↔ rest = []) ∧
          (∀ c, failure.cause = .trailing c → rest ≠ []) ∧
          recordedIn p log text = earlier ++ failure :: later ∧
          (∀ f ∈ earlier, ∃ before' rest', text = before' ++ rest' ∧ f.StandsAt before' rest' ∧
            before'.utf8Length < before.utf8Length) ∧
          ∀ f ∈ later, ∃ before' rest', text = before' ++ rest' ∧ f.StandsAt before' rest' ∧
            before'.utf8Length ≤ before.utf8Length := by
  refine ⟨fun production => (Production.recorded production).exists_log,
    fun escape => ⟨(Grammar.recorded_arg escape).exists_log,
      (Grammar.recorded_owner escape).exists_log⟩, ?_⟩
  intro α p log h text failure hr
  obtain ⟨kept, arises⟩ := foldl_recordedIn h hr
  obtain ⟨earlier, later, whole, smaller, notGreater⟩ := foldl_furthestOf_eq_some kept
  -- each failure recorded has a place in the text, and positions are ordered as offsets are
  have placed (f : Failure) (hf : f ∈ recordedIn p log text) :
      ∃ before rest, text = before ++ rest ∧ f.position = Position.start.after before ∧
        f.StandsAt before rest := by
    obtain ⟨place, leads, here⟩ := arises f hf
    exact Failure.standsAt_of_arisesAt leads here
  obtain ⟨before, rest, split, position, stands⟩ := placed failure (by simp [whole])
  have isPrefix : before <+: text := ⟨rest, split.symm⟩
  refine ⟨before, rest, earlier, later, split, stands, stands.found_eq_none_iff,
    fun _ => stands.rest_ne_nil, whole, fun f hf => ?_, fun f hf => ?_⟩
  · obtain ⟨before', rest', split', position', stands'⟩ := placed f (by simp [whole, hf])
    refine ⟨before', rest', split', stands', ?_⟩
    have := smaller f hf
    rw [position, position'] at this
    exact (Position.after_lt_after_iff ⟨rest', split'.symm⟩ isPrefix).mp this
  · obtain ⟨before', rest', split', position', stands'⟩ := placed f (by simp [whole, hf])
    refine ⟨before', rest', split', stands', ?_⟩
    have := notGreater f hf
    rw [position, position'] at this
    exact Nat.le_of_not_lt fun less =>
      this ((Position.after_lt_after_iff isPrefix ⟨rest', split'.symm⟩).mpr less)

/-- `abx` does not begin with `abc`; it begins with `a`, and what is reported is the character
behind that. -/
theorem reported_failure_is_furthest_sample :
    ∃ log, Records (firstOf [eat ['a', 'b', 'c'], eat ['a']]) log ∧
      complete (firstOf [eat ['a', 'b', 'c'], eat ['a']]) ['a', 'b', 'x'] =
        .error ⟨.trailing 'b', ⟨1, 2⟩⟩ ∧
      ∃ earlier later, recordedIn (firstOf [eat ['a', 'b', 'c'], eat ['a']]) log ['a', 'b', 'x'] =
        earlier ++ ⟨.trailing 'b', ⟨1, 2⟩⟩ :: later := by
  have second : Records (firstOf [eat ['a']]) _ := .attempt (.primitive (.eat ['a']))
  have records := Records.firstOf (p := eat ['a', 'b', 'c']) (.primitive (.eat _)) second
  have failed : complete (firstOf [eat ['a', 'b', 'c'], eat ['a']]) ['a', 'b', 'x'] =
      .error ⟨.trailing 'b', ⟨1, 2⟩⟩ := rfl
  obtain ⟨_, _, earlier, later, _, _, _, _, whole, _⟩ :=
    reported_failure_is_furthest.2.2 _ _ records _ _ failed
  exact ⟨_, records, failed, earlier, later, whole⟩

end Parser

end DockerfileSyntax
