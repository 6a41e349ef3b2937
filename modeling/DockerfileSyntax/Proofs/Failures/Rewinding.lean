import DockerfileSyntax.Proofs.Failures.Furthest
import DockerfileSyntax.Proofs.Reading.Local

/-!
# Failed readings go back

A parser that fails leaves the cursor where the failure arose, and only `attempt` goes back. Still
every token and every literal, identifier and keyword rewinds: some are attempts, others look before
they read, and others have nothing behind their first part that could fail. What is kept is the
record: it lies at the failure or beyond it, and no earlier than the record before.

1. `exists_foldl_furthestOf_of_mem`: no failure that is recorded lies beyond the record.
2. `Rewinds`: the parsers that go back on their own, by the ways in which they are built.
3. `failed_readings_rewind`: the two together, for every grammar of a token and its parts.
-/

namespace DockerfileSyntax

namespace Parser

variable {α β : Type}

/-! ## The record of a failed run -/

/-- No failure recorded lies beyond the record kept, and neither does the record before. -/
theorem exists_foldl_furthestOf_of_mem {log : List Failure} {f : Failure} (hf : f ∈ log)
    (o : Option Failure) :
    ∃ kept, log.foldl furthestOf o = some kept ∧ ¬ kept.position < f.position ∧
      ∀ old, o = some old → ¬ kept.position < old.position := by
  obtain ⟨kept, hk⟩ := exists_foldl_furthestOf (List.ne_nil_of_mem hf) o
  refine ⟨kept, hk, ?_⟩
  -- what is recorded before the record kept lies before it, what comes later not beyond it
  have notBeyond {earlier later : List Failure} (whole : log = earlier ++ kept :: later)
      (before : ∀ k ∈ earlier, k.position < kept.position)
      (latest : ∀ k ∈ later, ¬ kept.position < k.position) : ¬ kept.position < f.position := by
    rw [whole, List.mem_append, List.mem_cons] at hf
    rcases hf with hf | rfl | hf
    · exact Position.lt_asymm (before f hf)
    · exact Position.lt_irrefl _
    · exact latest f hf
  cases o with
  | none =>
    obtain ⟨earlier, later, whole, before, latest⟩ := foldl_furthestOf_eq_some hk
    exact ⟨notBeyond whole before latest, nofun⟩
  | some old =>
    rcases foldl_furthestOf_some hk with
      ⟨rfl, latest⟩ | ⟨earlier, later, whole, beyond, before, latest⟩
    · refine ⟨latest f hf, ?_⟩
      rintro _ ⟨⟩
      exact Position.lt_irrefl _
    · refine ⟨notBeyond whole before latest, ?_⟩
      rintro _ ⟨⟩
      exact Position.lt_asymm beyond

/-! ## Parsers that go back on their own -/

/-- A failed run of `p` leaves the cursor at the place where it began. -/
class Rewinds (p : Parser α) : Prop where
  toPlace_eq : ∀ {c d : Cursor} {f : Failure}, p c = .error f d → d.toPlace = c.toPlace

instance rewinds_fail (what : Expectation) : Rewinds (fail what : Parser α) where
  toPlace_eq h := by
    cases h
    exact record_toPlace _ _

instance rewinds_satisfy (what : Expectation) (holds : Char → Bool) :
    Rewinds (satisfy what holds) where
  toPlace_eq h := by
    unfold satisfy at h
    split at h
    · exact (rewinds_fail what).toPlace_eq h
    · split at h
      · cases h
      · exact (rewinds_fail what).toPlace_eq h

instance rewinds_eat (text : Text) : Rewinds (eat text) where
  toPlace_eq h := by
    unfold eat at h
    split at h
    · cases h
    · exact (rewinds_fail _).toPlace_eq h

instance rewinds_choose (what : Expectation) (spelling : α → Text) (options : List α) :
    Rewinds (choose what spelling options) where
  toPlace_eq h := by
    unfold choose at h
    split at h
    · cases h
    · exact (rewinds_fail what).toPlace_eq h

instance rewinds_attempt (p : Parser α) : Rewinds (attempt p) := ⟨attempt_error_toPlace⟩

instance rewinds_firstOf (p : Parser α) (ps : List (Parser α)) : Rewinds (firstOf (p :: ps)) := by
  induction ps generalizing p with
  | nil => exact rewinds_attempt p
  | cons q ps ih =>
    refine ⟨fun {c d f} h => ?_⟩
    rw [firstOf_cons_cons] at h
    cases hp : attempt p c with
    | ok a e =>
      rw [hp] at h
      cases h
    | error g e =>
      rw [hp] at h
      exact ((ih q).toPlace_eq h).trans (attempt_error_toPlace hp)

/-- What never fails has nothing to go back from. -/
theorem Total.rewinds {p : Parser α} [Regular p] (h : Total p) : Rewinds p where
  toPlace_eq failed := absurd (Regular.of_error failed).1 (h _)

/-- A sequence rewinds if its first part does and nothing behind that fails. -/
theorem Rewinds.bind_of_total {p : Parser α} {f : α → Parser β} [∀ a, Regular (f a)]
    (hp : Rewinds p) (hf : ∀ a, Total (f a)) : Rewinds (p >>= f) where
  toPlace_eq {c d failure} h := by
    rw [bind_apply] at h
    cases hc : p c with
    | ok a e =>
      rw [hc] at h
      exact absurd (Regular.of_error h).1 (hf a _)
    | error g e =>
      rw [hc] at h
      cases h
      exact hp.toPlace_eq hc

/-- A sequence rewinds if its first part only looks and what it leads to rewinds. -/
theorem Rewinds.bind_of_still {p : Parser α} {f : α → Parser β} (hp : Rewinds p)
    (still : ∀ {c d a}, p c = .ok a d → d.toPlace = c.toPlace) (hf : ∀ a, Rewinds (f a)) :
    Rewinds (p >>= f) where
  toPlace_eq {c d failure} h := by
    rw [bind_apply] at h
    cases hc : p c with
    | ok a e =>
      rw [hc] at h
      exact ((hf a).toPlace_eq h).trans (still hc)
    | error g e =>
      rw [hc] at h
      cases h
      exact hp.toPlace_eq hc

theorem total_sees (p : Parser α) : Total (sees p) := by
  intro s h
  rw [run_sees] at h
  cases h

theorem sees_toPlace {p : Parser α} {c d : Cursor} {b : Bool} (h : sees p c = .ok b d) :
    d.toPlace = c.toPlace := by
  unfold sees at h
  cases hp : p c <;> rw [hp] at h <;> cases h <;> rfl

theorem optional_none_toPlace {p : Parser α} {c d : Cursor} (h : optional p c = .ok none d) :
    d.toPlace = c.toPlace := by
  unfold optional at h
  cases hp : attempt p c <;> rw [hp] at h <;> cases h
  exact attempt_error_toPlace hp

/-- Behind an optional part, going on without it has to rewind and going on with it not to fail. -/
theorem Rewinds.bind_optional {p : Parser α} {f : Option α → Parser β} [Regular p]
    [∀ a, Regular (f (some a))] (hn : Rewinds (f none)) (hs : ∀ a, Total (f (some a))) :
    Rewinds (optional p >>= f) where
  toPlace_eq {c d failure} h := by
    rw [bind_apply] at h
    cases hc : optional p c with
    | ok o e =>
      rw [hc] at h
      cases o with
      | none => exact (hn.toPlace_eq h).trans (optional_none_toPlace hc)
      | some a => exact absurd (Regular.of_error h).1 (hs a _)
    | error g e => exact absurd (Regular.of_error hc).1 (total_optional p _)

end Parser

namespace Grammar

open DockerfileSyntax.Parser

variable {α : Type}

/-! ## Trivia, references and content -/

instance rewinds_newLine : Rewinds newLine := rewinds_choose ..

instance rewinds_continuation (escape : Char) : Rewinds (continuation escape) := rewinds_attempt _

instance rewinds_escapedChar (escape : Char) : Rewinds (escapedChar escape) := by
  refine Rewinds.bind_of_still (total_sees (continuation escape)).rewinds sees_toPlace fun b => ?_
  cases b
  · exact rewinds_attempt _
  · exact rewinds_fail _

instance rewinds_comment : Rewinds comment := by
  refine Rewinds.bind_of_still ⟨nofun⟩ (by rintro c d a ⟨⟩; rfl) fun found => ?_
  split
  · exact (total_takeWhile _).rewinds
  · exact rewinds_fail _

instance rewinds_commentLine : Rewinds commentLine := rewinds_attempt _

instance rewinds_blankLine : Rewinds blankLine := rewinds_attempt _

instance rewinds_reference (escape : Char) : Rewinds (reference escape) := rewinds_firstOf ..

/-- Content fails in its first unit, which is an attempt; there may be any number of later ones. -/
instance rewinds_content (rules : ContentRules) : Rewinds (content rules) := by
  rw [content_eq]
  exact (rewinds_attempt _).bind_of_total fun _ => (total_many _).bind fun _ => total_pure _

/-! ## Literals, identifiers and keywords -/

/-- Between quotes going back is an attempt; without quotes the inner parser has to go back. -/
theorem rewinds_inOptionalQuotes (inner : Option Quote → Parser α) [∀ quote, Regular (inner quote)]
    (bare : Rewinds (inner none)) : Rewinds (inOptionalQuotes inner) := by
  unfold inOptionalQuotes
  induction Quote.all with
  | nil => exact bare.bind_of_total fun _ => total_pure _
  | cons quote quotes ih => exact Rewinds.bind_optional ih fun _ => total_pure _

instance rewinds_literalContent (escape : Char) (spacing : Spacing) (excluded : List Char)
    (quote : Option Quote) : Rewinds (literalContent escape spacing excluded quote) := by
  cases quote with
  | some quote => exact ((total_optional _).bind fun _ => total_pure _).rewinds
  | none => exact rewinds_content _

instance rewinds_literal (escape : Char) (spacing : Spacing) (excluded : List Char) :
    Rewinds (literal escape spacing excluded) :=
  (rewinds_inOptionalQuotes _ (rewinds_literalContent ..)).bind_of_total fun _ => total_pure _

instance rewinds_nameRun (rules : NameRules) (excluded : List Char) :
    Rewinds (nameRun rules excluded) := rewinds_attempt _

instance rewinds_identifier (rules : NameRules) : Rewinds (identifier rules) :=
  (rewinds_inOptionalQuotes _ (rewinds_nameRun ..)).bind_of_total fun _ => total_pure _

instance rewinds_identifierContent (rules : NameRules) (quote : Option Quote) :
    Rewinds (identifierContent rules quote) := by
  unfold identifierContent many1
  refine Rewinds.bind_of_total ?_ fun _ => total_pure _
  exact (rewinds_attempt _).bind_of_total fun _ => (total_many _).bind fun _ => total_pure _

instance rewinds_identifierAggregate (rules : NameRules) : Rewinds (identifierAggregate rules) :=
  (rewinds_inOptionalQuotes _ (rewinds_identifierContent ..)).bind_of_total fun _ => total_pure _

instance rewinds_keyword (escape : Char) (name : Text) : Rewinds (keyword escape name) :=
  rewinds_attempt _

end Grammar

/-! ## Failures in place -/

/-- Where `p` fails, the cursor has the offset, the line and the column from before, with the same
text before it; the record lies at the failure or beyond it, and no earlier than the record from
before. -/
def Parser.FailsInPlace {α : Type} (p : Parser α) : Prop :=
  ∀ (c d : Cursor) (f : Failure), p c = .error f d →
    d.offset = c.offset ∧ d.position = c.position ∧ d.rest = c.rest ∧
      ∃ kept, d.furthest = some kept ∧ ¬ kept.position < f.position ∧
        ∀ old, c.furthest = some old → ¬ kept.position < old.position

open Grammar

namespace Parser

theorem failsInPlace {α : Type} (p : Parser α) [recorded : Recorded p] [rewinds : Rewinds p] :
    FailsInPlace p := by
  intro c d f h
  obtain ⟨log, records⟩ := recorded.exists_log
  have tells := records.tells c
  rw [h] at tells
  have furthest : d.furthest = (log c).foldl furthestOf c.furthest := tells.furthest
  rw [furthest, rewinds.toPlace_eq h]
  exact ⟨rfl, rfl, rfl, exists_foldl_furthestOf_of_mem (tells.recorded f d rfl) c.furthest⟩

/-- A failed reading of a token or of its parts goes back and keeps the record of how far it came:
of a character or a fixed text, of trivia, of a keyword, a reference, a literal or an identifier,
with every escape character and every other parameter. -/
theorem failed_readings_rewind :
    (∀ what holds, FailsInPlace (satisfy what holds)) ∧
    (∀ text, FailsInPlace (eat text) ∧ FailsInPlace (Production.symbol text).parser ∧
      FailsInPlace (Production.punctuation text).parser) ∧
    FailsInPlace newLine ∧ FailsInPlace comment ∧ FailsInPlace commentLine ∧
    FailsInPlace blankLine ∧
    (∀ escape, FailsInPlace (continuation escape) ∧ FailsInPlace (escapedChar escape) ∧
      FailsInPlace (reference escape)) ∧
    (∀ escape name, FailsInPlace (keyword escape name)) ∧
    (∀ escape spacing excluded, FailsInPlace (literal escape spacing excluded) ∧
      ∀ quote, FailsInPlace (literalContent escape spacing excluded quote)) ∧
    ∀ rules, FailsInPlace (identifier rules) ∧ FailsInPlace (identifierAggregate rules) ∧
      ∀ quote, FailsInPlace (identifierContent rules quote) := by
  have single (toToken : Unit → Token) (text : Text) :
      Rewinds (Production.single toToken (eat text)) :=
    (rewinds_eat text).bind_of_total fun _ => total_pure _
  refine ⟨fun _ _ => failsInPlace _, fun text => ⟨failsInPlace _, ?_, ?_⟩, failsInPlace _,
    failsInPlace _, failsInPlace _, failsInPlace _,
    fun _ => ⟨failsInPlace _, failsInPlace _, failsInPlace _⟩, fun _ _ => failsInPlace _,
    fun _ _ _ => ⟨failsInPlace _, fun _ => failsInPlace _⟩,
    fun _ => ⟨failsInPlace _, failsInPlace _, fun _ => failsInPlace _⟩⟩
  · rw [Production.parser]
    have := single (fun _ => .symbol text) text
    exact failsInPlace _
  · rw [Production.parser]
    have := single (fun _ => .punctuation text) text
    exact failsInPlace _

/-- Behind a backslash and a blank, an `x` is no line end. The cursor is then back before the
backslash, and the record still points at the `x`. -/
theorem failed_readings_rewind_sample :
    ∃ failure d kept, continuation '\\' (.start ['\\', ' ', 'x']) = .error failure d ∧
      failure.position = ⟨1, 3⟩ ∧ d.offset = 0 ∧ d.position = ⟨1, 1⟩ ∧
      d.furthest = some kept ∧ ¬ kept.position < failure.position := by
  obtain ⟨-, -, -, -, -, -, trivia, -⟩ := failed_readings_rewind
  obtain ⟨offset, position, -, kept, recorded, beyond, -⟩ :=
    (trivia '\\').1 (.start ['\\', ' ', 'x']) _ _ rfl
  exact ⟨_, _, kept, rfl, rfl, offset, position, recorded, beyond⟩

end Parser

end DockerfileSyntax
