import DockerfileSyntax.Proofs.Content.Evaluation

/-!
# What parsers give

`Gives p P` says that every result of `p` has the property `P`, whatever the text and wherever the
parser stops. Properties go through the combinators, so that what is known of the parts of a grammar
is known of all that it reads. None of this depends on the escape character.
-/

namespace DockerfileSyntax

namespace Parser

variable {α β : Type} {P : α → Prop} {Q : β → Prop}

/-- Every result of `p` has this property. -/
structure Gives (p : Parser α) (P : α → Prop) : Prop where
  holds : ∀ {s r a}, run p s = some (a, r) → P a

theorem gives_any (p : Parser α) : Gives p fun _ => True := ⟨fun _ => trivial⟩

theorem gives_pure {a : α} (h : P a) : Gives (pure a) P := by
  refine ⟨fun hr => ?_⟩
  obtain ⟨rfl, rfl⟩ := run_pure_eq_some.mp hr
  exact h

theorem Gives.bind {p : Parser α} {f : α → Parser β} [∀ a, Regular (f a)] (h : Gives p P)
    (h' : ∀ a, P a → Gives (f a) Q) : Gives (p >>= f) Q := by
  refine ⟨fun hr => ?_⟩
  obtain ⟨a, m, hp, hf⟩ := run_bind_eq_some.mp hr
  exact (h' a (h.holds hp)).holds hf

theorem Gives.attempt {p : Parser α} (h : Gives p P) : Gives (attempt p) P := by
  refine ⟨fun hr => ?_⟩
  rw [run_attempt] at hr
  exact h.holds hr

/-- Behind an optional parser, each of the two ways on is looked at alone. -/
theorem Gives.bind_optional {p : Parser α} {f : Option α → Parser β} [Regular (f none)]
    [∀ a, Regular (f (some a))] (h : Gives p P) (none : Gives (f none) Q)
    (some : ∀ a, P a → Gives (f (some a)) Q) : Gives (optional p >>= f) Q := by
  refine ⟨fun hr => ?_⟩
  rcases run_optional_bind_eq_some.mp hr with ⟨a, m, hp, hf⟩ | ⟨-, hf⟩
  · exact (some a (h.holds hp)).holds hf
  · exact none.holds hf

theorem Gives.firstOf_pair {p q : Parser α} [Regular q] (h : Gives p P) (h' : Gives q P) :
    Gives (firstOf [p, q]) P := by
  refine ⟨fun hr => ?_⟩
  rw [run_firstOf_pair] at hr
  rcases Option.or_eq_some_iff.mp hr with hr | ⟨-, hr⟩
  · exact h.holds hr
  · exact h'.holds hr

theorem Gives.many {p : Parser α} [Regular p] (h : Gives p P) :
    Gives (many p) fun as => ∀ a ∈ as, P a := by
  refine ⟨fun hr => ?_⟩
  have steps := (run_many_eq_some.mp hr).1
  clear hr
  induction steps with
  | nil => simp
  | cons first _ _ ih => exact List.forall_mem_cons.mpr ⟨h.holds first, ih⟩

theorem Gives.many1 {p : Parser α} [Regular p] (h : Gives p P) :
    Gives (many1 p) fun as => ∀ a ∈ as, P a :=
  h.attempt.bind fun _ first => h.many.bind fun _ others =>
    gives_pure (List.forall_mem_cons.mpr ⟨first, others⟩)

end Parser

/-! ## Trivia -/

/-- If it is a line continuation, then one that begins with this escape character. -/
def Trivia.IsPlain (e : Char) : Trivia → Prop
  | .continuation k => k.IsBreak e
  | _ => True

/-- Trivia whose line continuations all begin with this escape character. -/
def PlainTrivia (e : Char) (ts : List Trivia) : Prop := ∀ t ∈ ts, t.IsPlain e

section Plain

variable {e : Char} {s t : List Trivia}

theorem plainTrivia_nil : PlainTrivia e [] := by simp [PlainTrivia]

theorem PlainTrivia.cons {t : Trivia} {ts : List Trivia} (h : t.IsPlain e)
    (h' : PlainTrivia e ts) : PlainTrivia e (t :: ts) :=
  List.forall_mem_cons.mpr ⟨h, h'⟩

theorem PlainTrivia.append (h : PlainTrivia e s) (h' : PlainTrivia e t) : PlainTrivia e (s ++ t) :=
  List.forall_mem_append.mpr ⟨h, h'⟩

theorem PlainTrivia.flatten {tss : List (List Trivia)} (h : ∀ ts ∈ tss, PlainTrivia e ts) :
    PlainTrivia e tss.flatten := by
  intro t ht
  obtain ⟨ts, hts, ht⟩ := List.mem_flatten.mp ht
  exact h ts hts t ht

theorem plainTrivia_ofBlanks (e : Char) (gap : Text) : PlainTrivia e (Trivia.ofBlanks gap) := by
  cases gap with
  | nil => exact plainTrivia_nil
  | cons c gap => exact plainTrivia_nil.cons trivial

end Plain

namespace Grammar

open DockerfileSyntax.Parser

section Plain

variable (e : Char)

theorem gives_continuation : Gives (continuation e) fun k => k.IsBreak e :=
  ⟨fun hr => (isBreak_of_run hr).1⟩

theorem gives_blankRun : Gives blankRun (PlainTrivia e) :=
  (gives_any _).bind fun gap _ => gives_pure (plainTrivia_ofBlanks e gap)

theorem gives_optionalNewLine : Gives optionalNewLine (PlainTrivia e) :=
  (gives_any _).bind_optional (gives_pure plainTrivia_nil) fun _ _ =>
    gives_pure (plainTrivia_nil.cons trivial)

theorem gives_whitespace : Gives whitespace (PlainTrivia e) :=
  (gives_any _).bind fun leading _ => (gives_optionalNewLine e).bind fun _ ending =>
    gives_pure ((plainTrivia_ofBlanks e leading).append ending)

theorem gives_commentLine : Gives commentLine (PlainTrivia e) :=
  .attempt <| (gives_whitespace e).bind fun _ leading => (gives_any _).bind fun _ _ =>
    (gives_optionalNewLine e).bind fun _ ending =>
      gives_pure (leading.append (ending.cons trivial))

theorem gives_trailingComments : Gives trailingComments (PlainTrivia e) :=
  (gives_commentLine e).many.bind fun _ lines => gives_pure (.flatten lines)

theorem gives_blankLine : Gives blankLine (PlainTrivia e) :=
  .attempt <| (gives_any _).bind fun leading _ => (gives_any _).bind fun _ _ =>
    gives_pure ((plainTrivia_ofBlanks e leading).append (plainTrivia_nil.cons trivial))

theorem gives_interludes : Gives interludes (PlainTrivia e) :=
  ((gives_commentLine e).firstOf_pair (gives_blankLine e)).many.bind fun _ lines =>
    gives_pure (.flatten lines)

theorem gives_optionalContinuation : Gives (optionalContinuation e) (PlainTrivia e) :=
  (gives_continuation e).bind_optional (gives_pure plainTrivia_nil) fun _ isBreak =>
    gives_pure (plainTrivia_nil.cons isBreak)

theorem gives_ending : Gives (ending e) (PlainTrivia e) :=
  (gives_blankRun e).bind fun _ gap => (gives_optionalContinuation e).bind fun _ break_ =>
    (gives_optionalNewLine e).bind fun _ ending => (gives_trailingComments e).bind fun _ comments =>
      gives_pure (((gap.append break_).append ending).append comments)

end Plain

/-! ## Keywords -/

/-- What keywords are made of: strings and line continuations. -/
inductive WordPart (e : Char) : Token → Prop
  | string (text : Text) : WordPart e (.string text)
  | break_ {k : Continuation} : k.IsBreak e → WordPart e k.toToken

section Words

variable (e : Char)

theorem gives_charBelow (what : Expectation) (holds : Char → Bool) :
    Gives (charBelow e what holds) fun ts => ∀ t ∈ ts, WordPart e t := by
  refine ⟨fun hr => ?_⟩
  obtain ⟨breaks, c, all, -, -, -, rfl⟩ := run_charBelow_eq_some.mp hr
  refine List.forall_mem_append.mpr ⟨fun t ht => ?_, by simpa using .string [c]⟩
  obtain ⟨k, hk, rfl⟩ := List.mem_map.mp ht
  exact .break_ (all k hk)

theorem gives_keywordTail (what : Expectation) (letters : Text) :
    Gives (keywordTail e what letters) fun ts => ∀ t ∈ ts, WordPart e t := by
  induction letters with
  | nil => exact gives_pure (by simp)
  | cons letter letters ih =>
    exact (gives_charBelow e what _).bind fun _ found => ih.bind fun _ others =>
      gives_pure (List.forall_mem_append.mpr ⟨found, others⟩)

theorem gives_keyword (name : Text) :
    Gives (keyword e name) fun k => ∀ t ∈ k.children, WordPart e t := by
  refine .attempt ?_
  cases name with
  | nil => exact gives_pure (by simp)
  | cons letter letters =>
    refine (gives_any _).bind fun head _ => (gives_keywordTail e _ letters).bind fun _ tail => ?_
    refine gives_pure ((forall_mem_mergeStrings .string).mpr ?_)
    exact List.forall_mem_cons.mpr ⟨.string _, tail⟩

end Words

end Grammar

end DockerfileSyntax
