import DockerfileSyntax.Proofs.Content.Breaks
import Mathlib.Data.List.Chain

/-!
# Well-formed content

`Word` says which lists of tokens are content under given rules, without a parser: what a string
may hold, how a line continuation and a reference look, and which tokens may be neighbours.
`Literal.WellFormed` says the same of a literal. A word is built from its end: `Suffix` is what is
true of every end of a word, and it is kept by each thing that may stand before one.
-/

namespace DockerfileSyntax

open Grammar

/-! ## Words -/

/-- `Spells rules t`: from left to right, `t` is made of escaped characters and of characters that
stand for themselves. A dollar sign stands for itself unless it begins a reference in `t`. -/
inductive Spells (rules : ContentRules) : Text → Prop
  | nil : Spells rules []
  | pair {c : Char} {t : Text} :
      isLineEnd c = false → Spells rules t → Spells rules (rules.escape :: c :: t)
  | plain {c : Char} {t : Text} :
      c ≠ rules.escape → isLineEnd c = false → c ∉ rules.excluded →
      (isInlineBlank c = true → rules.spacing = .content) → startsReference (c :: t) = false →
      Spells rules t → Spells rules (c :: t)

/-- The token is a line continuation. -/
def Token.isBreak : Token → Bool
  | .continuation _ => true
  | _ => false

/-- The first token may stand right before the second one: two strings would be one, and a name
without braces takes every character that it can. -/
def mayPrecede : Token → Token → Bool
  | .string _, .string _ => false
  | .reference false _, .string (c :: _) => !isVariableNameChar c
  | _, _ => true

/-- The tokens may be neighbours, and neither the first nor the last one is a line continuation. -/
structure Joined (ts : List Token) : Prop where
  neighbours : ts.IsChain fun s t => mayPrecede s t = true
  first : ∀ t, ts.head? = some t → t.isBreak = false
  last : ∀ t, ts.getLast? = some t → t.isBreak = false

/-- `Part rules t`: by itself, `t` may be among the tokens of content. -/
inductive Part : ContentRules → Token → Prop
  | string {rules : ContentRules} {text : Text} :
      text ≠ [] → Spells rules text → Part rules (.string text)
  | continuation {rules : ContentRules} {children : List Token} :
      (⟨children⟩ : Continuation).IsBreak rules.escape → Part rules (.continuation children)
  | bare {rules : ContentRules} {name : Text} :
      isVariableName name = true → Part rules (.reference false [.string name])
  | braced {rules : ContentRules} {name : Text} :
      isVariableName name = true → Part rules (.reference true [.string name])
  | modified {rules : ContentRules} {name : Text} (m : Modifier) {word : List Token} :
      isVariableName name = true → (∀ t ∈ word, Part (.word rules.escape) t) → Joined word →
      Part rules (.reference true [.string name, .symbol m.symbol, .literal none word])

/-- The tokens of content, possibly none. -/
structure Word (rules : ContentRules) (ts : List Token) : Prop where
  parts : ∀ t ∈ ts, Part rules t
  joined : Joined ts

/-- Between quotes a literal is any word that does not hold the quote; without quotes it is a word
that is not empty and holds neither quote nor an excluded character. -/
def Literal.WellFormed (escape : Char) (spacing : Spacing) (excluded : List Char)
    (l : Literal) : Prop :=
  match l.quote with
  | some quote => Word (.quoted escape quote) l.children
  | none => Word (.bare escape spacing excluded) l.children ∧ l.children ≠ []

/-! ## Strings -/

theorem startsReference_iff {s : Text} :
    startsReference s = true ↔
      ∃ c t, s = '$' :: c :: t ∧ (c = '\x7b' ∨ isVariableNameStart c = true) := by
  unfold startsReference
  split
  · next c t => simp
  · next h =>
    simp only [Bool.false_eq_true, false_iff]
    rintro ⟨c, t, rfl, -⟩
    exact h c t rfl

theorem startsReference_cons (c : Char) (m : Text) :
    startsReference (c :: m) = (c == '$' && startsReference ('$' :: m)) := by
  by_cases dollar : c = '$'
  · rw [dollar]
    rfl
  · rw [beq_false_of_ne dollar, Bool.false_and, ← Bool.not_eq_true, startsReference_iff]
    rintro ⟨d, t, h, -⟩
    exact dollar (List.cons.inj h).1

theorem startsReference_of_append {c : Char} {s t : Text}
    (h : startsReference (c :: (s ++ t)) = false) : startsReference (c :: s) = false := by
  rw [← Bool.not_eq_true, startsReference_iff] at h ⊢
  rintro ⟨d, r, hs, hd⟩
  exact h ⟨d, r ++ t, by rw [← List.cons_append, hs]; rfl, hd⟩

theorem startsPlain_cons {rules : ContentRules} {c : Char} {t : Text} :
    startsPlain rules (c :: t) = true ↔
      c ≠ rules.escape ∧ isLineEnd c = false ∧ c ∉ rules.excluded ∧
      (isInlineBlank c = true → rules.spacing = .content) ∧ startsReference (c :: t) = false := by
  have dollar (h : isInlineBlank c = true) : startsReference (c :: t) = false := by
    rw [← Bool.not_eq_true, startsReference_iff]
    rintro ⟨d, r, hs, -⟩
    rw [(List.cons.inj hs).1] at h
    exact absurd h (by decide)
  unfold startsPlain
  cases hc : isLineEnd c with
  | true => simp [hc]
  | false =>
    cases hb : isInlineBlank c with
    | false => simp [hc, hb, and_assoc]
    | true => simp [hc, hb, dollar hb, and_assoc]

theorem spells_pair_iff {rules : ContentRules} {c : Char} {t : Text} :
    Spells rules (rules.escape :: c :: t) ↔ isLineEnd c = false ∧ Spells rules t := by
  constructor
  · intro h
    cases h with
    | pair inLine spells => exact ⟨inLine, spells⟩
    | plain notEscape => exact absurd rfl notEscape
  · rintro ⟨inLine, spells⟩
    exact .pair inLine spells

theorem spells_plain_iff {rules : ContentRules} {c : Char} {t : Text}
    (notEscape : c ≠ rules.escape) :
    Spells rules (c :: t) ↔ startsPlain rules (c :: t) = true ∧ Spells rules t := by
  rw [startsPlain_cons]
  constructor
  · intro h
    cases h with
    | pair _ _ => exact absurd rfl notEscape
    | plain _ inLine allowed blank notReference spells =>
      exact ⟨⟨notEscape, inLine, allowed, blank, notReference⟩, spells⟩
  · rintro ⟨⟨-, inLine, allowed, blank, notReference⟩, spells⟩
    exact .plain notEscape inLine allowed blank notReference spells

theorem part_string_iff {rules : ContentRules} {text : Text} :
    Part rules (.string text) ↔ text ≠ [] ∧ Spells rules text := by
  constructor
  · intro h
    cases h with
    | string nonempty spells => exact ⟨nonempty, spells⟩
  · rintro ⟨nonempty, spells⟩
    exact .string nonempty spells

/-- One character of a string, or two of which the first escapes the second, before the rest. -/
theorem Spells.append_of_piece {rules : ContentRules} {p t m : Text}
    (h : (∃ c, p = [c] ∧ startsPlain rules (c :: (t ++ m)) = true) ∨
      ∃ c, p = [rules.escape, c] ∧ isLineEnd c = false) (ht : Spells rules t) :
    Spells rules (p ++ t) := by
  obtain ⟨c, rfl, hp⟩ | ⟨c, rfl, hc⟩ := h
  · obtain ⟨notEscape, inLine, allowed, blank, notReference⟩ := startsPlain_cons.mp hp
    exact .plain notEscape inLine allowed blank (startsReference_of_append notReference) ht
  · exact .pair hc ht

/-! ## Merging strings -/

/-- A text before tokens, as a part of their first string if they begin with one. -/
def prependText (text : Text) : List Token → List Token
  | .string more :: others => .string (text ++ more) :: others
  | others => if text.isEmpty then others else .string text :: others

theorem mergeStrings_string (text : Text) (ts : List Token) :
    mergeStrings (.string text :: ts) = prependText text (mergeStrings ts) := rfl

theorem mergeStrings_node (kind : NodeKind) (children ts : List Token) :
    mergeStrings (.node kind children :: ts) = .node kind children :: mergeStrings ts := rfl

theorem mergeStrings_breaks (breaks : List Continuation) (ts : List Token) :
    mergeStrings (breaks.map Continuation.toToken ++ ts) =
      breaks.map Continuation.toToken ++ mergeStrings ts := by
  induction breaks with
  | nil => rfl
  | cons k breaks ih =>
    rw [List.map_cons, List.cons_append, Continuation.toToken, mergeStrings_node, ih]
    rfl

@[simp] theorem prependText_nil (ts : List Token) : prependText [] ts = ts := by
  unfold prependText
  split <;> rfl

theorem prependText_of_not_string {text : Text} {ts : List Token} (nonempty : text ≠ [])
    (notString : ∀ more, ts.head? ≠ some (.string more)) :
    prependText text ts = .string text :: ts := by
  unfold prependText
  split
  · exact absurd rfl (notString _)
  · rw [if_neg (by simpa using nonempty)]

theorem prependText_append {s t : Text} (ht : t ≠ []) (ts : List Token) :
    prependText s (prependText t ts) = prependText (s ++ t) ts := by
  cases t with
  | nil => exact absurd rfl ht
  | cons c t =>
    unfold prependText
    rcases ts with _ | ⟨⟨kind, more⟩ | ⟨kind, children⟩, others⟩
    · simp
    · cases kind <;> simp
    · simp

/-! ## Neighbours -/

/-- Anything may stand before a token that is no string. -/
theorem mayPrecede_of_not_string (t : Token) {s : Token} (h : ∀ text, s ≠ .string text) :
    mayPrecede t s = true := by
  unfold mayPrecede
  split
  · exact absurd rfl (h _)
  · exact absurd rfl (h _)
  · rfl

/-! ## The end of a word -/

/-- The tokens at the end of a word: they may begin with a line continuation. -/
structure Suffix (rules : ContentRules) (ts : List Token) : Prop where
  parts : ∀ t ∈ ts, Part rules t
  neighbours : ts.IsChain fun s t => mayPrecede s t = true
  last : ∀ t, ts.getLast? = some t → t.isBreak = false

namespace Suffix

variable {rules : ContentRules} {ts : List Token}

theorem nil : Suffix rules [] :=
  ⟨by simp, .nil, by simp⟩

theorem word (h : Suffix rules ts) (first : ∀ t, ts.head? = some t → t.isBreak = false) :
    Word rules ts :=
  ⟨h.parts, h.neighbours, first, h.last⟩

theorem tail {t : Token} (h : Suffix rules (t :: ts)) : Suffix rules ts := by
  refine ⟨fun s hs => h.parts s (List.mem_cons_of_mem t hs), h.neighbours.tail, fun s hs => ?_⟩
  cases ts with
  | nil => cases hs
  | cons u ts => exact h.last s (by rw [List.getLast?_cons_cons]; exact hs)

theorem cons {t : Token} (h : Suffix rules ts) (part : Part rules t)
    (before : ∀ s, ts.head? = some s → mayPrecede t s = true) (unbroken : t.isBreak = false) :
    Suffix rules (t :: ts) := by
  refine ⟨List.forall_mem_cons.mpr ⟨part, h.parts⟩, ?_, fun s hs => ?_⟩
  · exact List.isChain_cons.mpr ⟨fun s hs => before s hs, h.neighbours⟩
  · cases ts with
    | nil =>
      cases hs
      exact unbroken
    | cons u ts =>
      rw [List.getLast?_cons_cons] at hs
      exact h.last s hs

theorem cons_iff {t : Token} (unbroken : t.isBreak = false) :
    Suffix rules (t :: ts) ↔ Part rules t ∧
      (∀ s, ts.head? = some s → mayPrecede t s = true) ∧ Suffix rules ts := by
  constructor
  · intro h
    exact ⟨h.parts t List.mem_cons_self, (List.isChain_cons.mp h.neighbours).1, h.tail⟩
  · rintro ⟨part, before, suffix⟩
    exact suffix.cons part before unbroken

/-- A piece of text goes into the first string, or becomes one. -/
theorem prepend {p m : Text} (h : Suffix rules ts) (hp : p ≠ [])
    (piece : (∃ c, p = [c] ∧ startsPlain rules (c :: (Token.renderAll ts ++ m)) = true) ∨
      ∃ c, p = [rules.escape, c] ∧ isLineEnd c = false) :
    Suffix rules (prependText p ts) := by
  unfold prependText
  split
  · next more others =>
    cases h.parts _ List.mem_cons_self with
    | string _ spells =>
      have spelled : Spells rules (p ++ more) :=
        Spells.append_of_piece (m := Token.renderAll others ++ m) (by simpa using piece) spells
      refine h.tail.cons (.string (by simp [hp]) spelled) (fun s hs => ?_) rfl
      refine mayPrecede_of_not_string _ ?_
      rintro text rfl
      cases (List.isChain_cons.mp h.neighbours).1 _ hs
  · next notString =>
    rw [if_neg (by simpa using hp)]
    have spelled : Spells rules p := by
      have := @Spells.append_of_piece rules p [] (Token.renderAll ts ++ m) piece .nil
      rwa [List.append_nil] at this
    refine h.cons (.string hp spelled) (fun s hs => mayPrecede_of_not_string _ ?_) rfl
    rintro text rfl
    obtain ⟨others, rfl⟩ := List.head?_eq_some_iff.mp hs
    exact notString text others rfl

theorem breaks {breaks : List Continuation} (h : Suffix rules ts) (nonempty : ts ≠ [])
    (hb : ∀ k ∈ breaks, k.IsBreak rules.escape) :
    Suffix rules (breaks.map Continuation.toToken ++ ts) := by
  induction breaks with
  | nil => exact h
  | cons k breaks ih =>
    obtain ⟨first, others⟩ := List.forall_mem_cons.mp hb
    have rest := ih others
    refine ⟨List.forall_mem_cons.mpr ⟨.continuation first, rest.parts⟩, ?_, fun s hs => ?_⟩
    · exact List.isChain_cons.mpr ⟨fun s hs => rfl, rest.neighbours⟩
    · have more : breaks.map Continuation.toToken ++ ts ≠ [] := by simp [nonempty]
      obtain ⟨u, us, hu⟩ := List.exists_cons_of_ne_nil more
      rw [List.map_cons, List.cons_append, hu, List.getLast?_cons_cons, ← hu] at hs
      exact rest.last s hs

end Suffix

theorem Word.suffix {rules : ContentRules} {ts : List Token} (h : Word rules ts) :
    Suffix rules ts :=
  ⟨h.parts, h.joined.neighbours, h.joined.last⟩

end DockerfileSyntax
