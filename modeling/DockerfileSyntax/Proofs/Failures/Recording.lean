import DockerfileSyntax.Proofs.Failures.Positions
import DockerfileSyntax.Proofs.Reading.Grammar

/-!
# What a parser records

A cursor keeps only the failure recorded furthest into the text. `Records p log` says what it has
been told: `log` lists, for a run of `p` from each cursor, the failures that are recorded on the
way, in order, those of lookahead and of abandoned alternatives among them. It is built as a parser
is, from the primitives and the combinators.

Whatever a run records arises at a place that it has reached, and the record behind the run is what
the log makes of the record before it (`Records.tells`). Every grammar of this library has a log
(`Production.recorded`).
-/

namespace DockerfileSyntax

/-- The character that a mismatch was found at; `none` at the end of the text. -/
def Mismatch.found : Mismatch → Option Char
  | .expected _ found => found
  | .trailing found => some found

/-- The failure arises at this place: it has its position, and has found what stands there. -/
structure Failure.ArisesAt (place : Place) (f : Failure) : Prop where
  position : f.position = place.position
  found : f.cause.found = place.rest.head?

namespace Parser

variable {α β : Type}

/-- The record once one more failure has been recorded. -/
def furthestOf : Option Failure → Failure → Option Failure
  | none, f => some f
  | some g, f => if g.position < f.position then some f else some g

theorem record_furthest (c : Cursor) (f : Failure) :
    (c.record f).furthest = furthestOf c.furthest f := by
  unfold Cursor.record furthestOf
  cases hc : c.furthest with
  | none => rfl
  | some g =>
    dsimp only
    split
    · rfl
    · exact hc

/-! ## Logs -/

/-- What a run from a cursor records, in order. -/
abbrev Log := Cursor → List Failure

namespace Log

/-- The failure that a parser ends with, if it does. -/
def ofResult (p : Parser α) : Log := fun c =>
  match p c with
  | .ok _ _ => []
  | .error f _ => [f]

/-- One parser after another. -/
def andThen (p : Parser α) (log : Log) (next : α → Log) : Log := fun c =>
  log c ++ match p c with
    | .ok a d => next a d
    | .error _ _ => []

/-- A parser and, where it fails, another one. -/
def orElse (p : Parser α) (log other : Log) : Log := fun c =>
  log c ++ match attempt p c with
    | .ok _ _ => []
    | .error _ d => other d

/-- A parser again and again, the last time included: there it fails or stands still. -/
def again (p : Parser α) (log : Log) (c : Cursor) : List Failure :=
  log c ++ match attempt p c with
    | .error _ _ => []
    | .ok _ d => if d.left < c.left then again p log d else []
termination_by c.left

theorem again_eq (p : Parser α) (log : Log) (c : Cursor) :
    again p log c = log c ++ match attempt p c with
      | .error _ _ => []
      | .ok _ d => if d.left < c.left then again p log d else [] := by
  rw [again]

end Log

/-- The parsers that look at the text themselves. -/
inductive Primitive : {α : Type} → Parser α → Prop
  | pure {α : Type} (a : α) : Primitive (pure a)
  | fail {α : Type} (what : Expectation) : Primitive (fail what : Parser α)
  | endOfInput : Primitive endOfInput
  | satisfy (what : Expectation) (holds : Char → Bool) : Primitive (satisfy what holds)
  | takeWhile (holds : Char → Bool) : Primitive (takeWhile holds)
  | eat (text : Text) : Primitive (eat text)
  | choose {α : Type} (what : Expectation) (spelling : α → Text) (options : List α) :
      Primitive (choose what spelling options)

/-- `p` is built from primitives and combinators, and `log` lists what it records. -/
inductive Records : {α : Type} → Parser α → Log → Prop
  | primitive {α : Type} {p : Parser α} : Primitive p → Records p (.ofResult p)
  | bind {α β : Type} {p : Parser α} {f : α → Parser β} {log : Log} {next : α → Log} :
      Records p log → (∀ a, Records (f a) (next a)) → Records (p >>= f) (.andThen p log next)
  /-- a grammar may look at its place in the text, to peek at what is left for one -/
  | look {α : Type} {f : Place → Parser α} {logs : Place → Log} :
      (∀ place, Records (f place) (logs place)) →
      Records (fun c => f c.toPlace c) fun c => logs c.toPlace c
  | attempt {α : Type} {p : Parser α} {log : Log} : Records p log → Records (attempt p) log
  | optional {α : Type} {p : Parser α} {log : Log} : Records p log → Records (optional p) log
  | sees {α : Type} {p : Parser α} {log : Log} : Records p log → Records (sees p) log
  | many {α : Type} {p : Parser α} {log : Log} : Records p log → Records (many p) (.again p log)
  | firstOf {α : Type} {p q : Parser α} {qs : List (Parser α)} {log other : Log} :
      Records p log → Records (firstOf (q :: qs)) other →
      Records (firstOf (p :: q :: qs)) (.orElse p log other)

/-! ## What a log tells of a run -/

/-- What the failures recorded by a run from `c` tell of its result. -/
structure Tells (c : Cursor) (log : List Failure) (result : EStateM.Result Failure Cursor α) :
    Prop where
  /-- the run does not go back -/
  leads : c.toPlace.Leads (resultCursor result).toPlace
  /-- the record is what the failures make of the one before -/
  furthest : (resultCursor result).furthest = log.foldl furthestOf c.furthest
  /-- each of them arises further on -/
  arises : ∀ f ∈ log, ∃ place, c.toPlace.Leads place ∧ f.ArisesAt place
  /-- a failed run has recorded its failure -/
  recorded : ∀ f d, result = .error f d → f ∈ log

theorem tells_of_ok {c d : Cursor} {a : α} (h : c.toPlace.Leads d.toPlace)
    (same : d.furthest = c.furthest) : Tells c [] (.ok a d : EStateM.Result Failure Cursor α) where
  leads := h
  furthest := same
  arises := nofun
  recorded _ _ e := by cases e

theorem tells_of_failure {c : Cursor} {f : Failure} (h : f.ArisesAt c.toPlace) :
    Tells c [f] (.error f (c.record f) : EStateM.Result Failure Cursor α) where
  leads := by
    rw [resultCursor, record_toPlace]
    exact Place.leads_refl _
  furthest := record_furthest c f
  arises := by
    simp only [List.mem_singleton, forall_eq]
    exact ⟨_, Place.leads_refl _, h⟩
  recorded _ _ e := by
    cases e
    exact List.mem_singleton_self f

theorem arisesAt_failure (c : Cursor) (what : Expectation) :
    (c.failure what).ArisesAt c.toPlace := ⟨rfl, rfl⟩

theorem tells_fail (what : Expectation) (c : Cursor) :
    Tells c [c.failure what] (fail what c : EStateM.Result Failure Cursor α) :=
  tells_of_failure (arisesAt_failure c what)

theorem tells_endOfInput (c : Cursor) : Tells c (Log.ofResult endOfInput c) (endOfInput c) := by
  unfold Log.ofResult endOfInput
  cases hr : c.rest with
  | nil => exact tells_of_ok (Place.leads_refl _) rfl
  | cons found r => exact tells_of_failure ⟨rfl, by rw [hr]; rfl⟩

/-- A primitive records the failure that it ends with, and leaves the record alone otherwise. -/
theorem tells_of_primitive {p : Parser α} (h : Primitive p) (c : Cursor) :
    Tells c (Log.ofResult p c) (p c) := by
  -- a primitive that succeeds has passed a beginning of the rest, one that fails calls `fail`
  cases h with
  | pure a => exact tells_of_ok (Place.leads_refl _) rfl
  | fail what => exact tells_fail what c
  | endOfInput => exact tells_endOfInput c
  | satisfy what holds =>
    unfold Log.ofResult
    cases hr : satisfy what holds c with
    | ok a d =>
      refine tells_of_ok (Regular.of_ok hr).2 ?_
      unfold satisfy at hr
      split at hr
      · cases hr
      · split at hr <;> cases hr
        rfl
    | error f d =>
      have failed : (fail what : Parser Char) c = .error f d := by
        unfold satisfy at hr
        split at hr
        · exact hr
        · split at hr
          · cases hr
          · exact hr
      cases failed
      exact tells_fail what c
  | takeWhile holds => exact tells_of_ok (Regular.of_ok (p := takeWhile holds) rfl).2 rfl
  | eat text =>
    unfold Log.ofResult
    cases hr : eat text c with
    | ok a d =>
      refine tells_of_ok (Regular.of_ok hr).2 ?_
      unfold eat at hr
      split at hr <;> cases hr
      rfl
    | error f d =>
      unfold eat at hr
      split at hr <;> cases hr
      exact tells_fail _ c
  | choose what spelling options =>
    unfold Log.ofResult
    cases hr : choose what spelling options c with
    | ok a d =>
      refine tells_of_ok (Regular.of_ok hr).2 ?_
      unfold choose at hr
      split at hr <;> cases hr
      rfl
    | error f d =>
      unfold choose at hr
      split at hr <;> cases hr
      exact tells_fail what c

namespace Tells

variable {c d : Cursor} {log more : List Failure} {result : EStateM.Result Failure Cursor α}

/-- A run that goes on from where one ended. -/
theorem trans (h : Tells c log result) (hd : resultCursor result = d)
    {next : EStateM.Result Failure Cursor β} (h' : Tells d more next) :
    Tells c (log ++ more) next where
  leads := h.leads.trans (hd ▸ h'.leads)
  furthest := by rw [h'.furthest, List.foldl_append, ← h.furthest, hd]
  arises := by
    refine List.forall_mem_append.mpr ⟨h.arises, fun f hf => ?_⟩
    obtain ⟨place, leads, arises⟩ := h'.arises f hf
    exact ⟨place, h.leads.trans (hd ▸ leads), arises⟩
  recorded f e he := List.mem_append_right _ (h'.recorded f e he)

/-- A run that ends with the failure of another one. -/
theorem error {f : Failure} (h : Tells c log (.error f d : EStateM.Result Failure Cursor α)) :
    Tells c log (.error f d : EStateM.Result Failure Cursor β) where
  leads := h.leads
  furthest := h.furthest
  arises := h.arises
  recorded g e he := by
    cases he
    exact h.recorded _ _ rfl

/-- A run that goes back to where it began and succeeds all the same. -/
theorem back (h : Tells c log result) (hd : resultCursor result = d) (b : β) :
    Tells c log (.ok b (d.goTo c.toPlace) : EStateM.Result Failure Cursor β) where
  leads := Place.leads_refl _
  furthest := by rw [← h.furthest, hd]; rfl
  arises := h.arises
  recorded _ _ e := by cases e

/-- A run that stays where it has come to and succeeds, whatever came out. -/
theorem ok (h : Tells c log result) (hd : resultCursor result = d) (b : β) :
    Tells c log (.ok b d : EStateM.Result Failure Cursor β) where
  leads := hd ▸ h.leads
  furthest := hd ▸ h.furthest
  arises := h.arises
  recorded _ _ e := by cases e

theorem attempt {p : Parser α} (h : Tells c log (p c)) : Tells c log (attempt p c) := by
  unfold Parser.attempt
  cases hp : p c with
  | ok a d =>
    rw [hp] at h
    exact h
  | error f d =>
    rw [hp] at h
    exact ⟨Place.leads_refl _, h.furthest, h.arises,
      fun g e he => by cases he; exact h.recorded _ _ rfl⟩

end Tells

theorem tells_again {p : Parser α} {log : Log} (h : ∀ c, Tells c (log c) (p c)) (c : Cursor) :
    Tells c (Log.again p log c) (many p c) := by
  have out (d : Cursor) : many p d = .ok (repeatFrom p d).1 (repeatFrom p d).2 := rfl
  rw [out, repeatFrom_eq, Log.again_eq]
  have first := (h c).attempt
  cases hp : Parser.attempt p c with
  | error f d =>
    rw [hp] at first
    dsimp only
    rw [List.append_nil]
    exact first.ok rfl _
  | ok a d =>
    rw [hp] at first
    by_cases shorter : d.left < c.left
    · simp only [shorter, if_true, Prod.map_fst, Prod.map_snd, id_eq]
      have others := tells_again h d
      rw [out] at others
      exact first.trans rfl (others.ok rfl _)
    · simp only [shorter, if_false, List.append_nil]
      exact first.ok rfl _
termination_by c.left

/-- The log of a parser tells of each of its runs. -/
theorem Records.tells {p : Parser α} {log : Log} (h : Records p log) (c : Cursor) :
    Tells c (log c) (p c) := by
  induction h generalizing c with
  | primitive h => exact tells_of_primitive h c
  | @bind _ _ p f log next _ _ ih ih' =>
    rw [bind_apply, Log.andThen]
    have first := ih c
    cases hp : p c with
    | ok a d =>
      rw [hp] at first
      dsimp only
      exact first.trans rfl (ih' a d)
    | error e d =>
      rw [hp] at first
      dsimp only
      rw [List.append_nil]
      exact first.error
  | look _ ih => exact ih c.toPlace c
  | attempt _ ih => exact (ih c).attempt
  | @optional _ p _ _ ih =>
    unfold Parser.optional
    have first := (ih c).attempt
    cases hp : Parser.attempt p c with
    | ok a d => exact first.ok (by rw [hp]; rfl) (some a)
    | error f d => exact first.ok (by rw [hp]; rfl) none
  | @sees _ p _ _ ih =>
    unfold Parser.sees
    have first := ih c
    cases hp : p c with
    | ok a d => exact first.back (by rw [hp]; rfl) true
    | error f d => exact first.back (by rw [hp]; rfl) false
  | many _ ih => exact tells_again ih c
  | @firstOf _ p q qs _ _ _ _ ih ih' =>
    rw [firstOf_cons_cons, Log.orElse]
    have first := (ih c).attempt
    cases hp : Parser.attempt p c with
    | ok a d =>
      rw [hp] at first
      dsimp only
      rw [List.append_nil]
      exact first
    | error f d =>
      rw [hp] at first
      dsimp only
      exact first.trans rfl (ih' d)

/-! ## Parsers that have a log -/

/-- `p` is built from primitives and combinators. -/
class Recorded (p : Parser α) : Prop where
  exists_log : ∃ log, Records p log

instance recorded_of_pure (a : α) : Recorded (pure a : Parser α) := ⟨_, .primitive (.pure a)⟩

instance recorded_fail (what : Expectation) : Recorded (fail what : Parser α) :=
  ⟨_, .primitive (.fail what)⟩

instance recorded_endOfInput : Recorded endOfInput := ⟨_, .primitive .endOfInput⟩

instance recorded_satisfy (what : Expectation) (holds : Char → Bool) :
    Recorded (satisfy what holds) := ⟨_, .primitive (.satisfy what holds)⟩

instance recorded_takeWhile (holds : Char → Bool) : Recorded (takeWhile holds) :=
  ⟨_, .primitive (.takeWhile holds)⟩

instance recorded_eat (text : Text) : Recorded (eat text) := ⟨_, .primitive (.eat text)⟩

instance recorded_choose (what : Expectation) (spelling : α → Text) (options : List α) :
    Recorded (choose what spelling options) := ⟨_, .primitive (.choose what spelling options)⟩

instance recorded_bind (p : Parser α) (f : α → Parser β) [hp : Recorded p]
    [hf : ∀ a, Recorded (f a)] : Recorded (p >>= f) := by
  obtain ⟨log, h⟩ := hp.exists_log
  obtain ⟨next, h'⟩ := Classical.axiomOfChoice fun a => (hf a).exists_log
  exact ⟨_, h.bind h'⟩

theorem recorded_look {f : Place → Parser α} (h : ∀ place, Recorded (f place)) :
    Recorded fun c => f c.toPlace c := by
  obtain ⟨logs, hl⟩ := Classical.axiomOfChoice fun place => (h place).exists_log
  exact ⟨_, .look hl⟩

instance recorded_peek : Recorded peek :=
  recorded_look (f := fun place => pure place.rest.head?) fun _ => inferInstance

instance recorded_ite (P : Prop) [Decidable P] (p q : Parser α) [hp : Recorded p]
    [hq : Recorded q] : Recorded (if P then p else q) := by
  split
  · exact hp
  · exact hq

instance recorded_attempt (p : Parser α) [hp : Recorded p] : Recorded (attempt p) := by
  obtain ⟨log, h⟩ := hp.exists_log
  exact ⟨_, h.attempt⟩

instance recorded_optional (p : Parser α) [hp : Recorded p] : Recorded (optional p) := by
  obtain ⟨log, h⟩ := hp.exists_log
  exact ⟨_, h.optional⟩

/-- Behind an optional parser, each of the two ways on has to have a log. -/
instance recorded_bind_optional (p : Parser α) (f : Option α → Parser β) [hp : Recorded p]
    [hn : Recorded (f none)] [hs : ∀ a, Recorded (f (some a))] : Recorded (optional p >>= f) := by
  have : ∀ o, Recorded (f o) := Option.rec hn hs
  exact recorded_bind _ _

instance recorded_sees (p : Parser α) [hp : Recorded p] : Recorded (sees p) := by
  obtain ⟨log, h⟩ := hp.exists_log
  exact ⟨_, h.sees⟩

instance recorded_many (p : Parser α) [hp : Recorded p] : Recorded (many p) := by
  obtain ⟨log, h⟩ := hp.exists_log
  exact ⟨_, h.many⟩

instance recorded_many1 (p : Parser α) [Recorded p] : Recorded (many1 p) := by
  unfold many1
  infer_instance

instance recorded_firstOf_nil : Recorded (firstOf ([] : List (Parser α))) :=
  recorded_fail .alternative

instance recorded_firstOf_singleton (p : Parser α) [Recorded p] : Recorded (firstOf [p]) :=
  recorded_attempt p

instance recorded_firstOf_cons (p q : Parser α) (qs : List (Parser α)) [hp : Recorded p]
    [hq : Recorded (firstOf (q :: qs))] : Recorded (firstOf (p :: q :: qs)) := by
  obtain ⟨log, h⟩ := hp.exists_log
  obtain ⟨other, h'⟩ := hq.exists_log
  exact ⟨_, h.firstOf h'⟩

theorem recorded_firstOf {ps : List (Parser α)} (h : ∀ p ∈ ps, Recorded p) :
    Recorded (firstOf ps) := by
  induction ps with
  | nil => infer_instance
  | cons p ps ih =>
    have hp : Recorded p := h p List.mem_cons_self
    have hps : Recorded (firstOf ps) := ih fun q hq => h q (List.mem_cons_of_mem _ hq)
    cases ps with
    | nil => infer_instance
    | cons q qs => infer_instance

end Parser

end DockerfileSyntax
