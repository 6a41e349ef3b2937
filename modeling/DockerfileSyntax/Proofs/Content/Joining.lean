import DockerfileSyntax.Proofs.Content.Evaluation
import DockerfileSyntax.Proofs.Content.Values

/-!
# Content without its line continuations

The value of content leaves the line continuations out, and so text can meet that stood apart: a
dollar sign and a name, or a name and more of it. `Token.joinsReference` finds these places.

1. `Part.evaluateAll_unbrokenAll`: the content without its line continuations evaluates as the
   content does.
2. `Part.renderAll_unbrokenAll`: its text is the value of the content.
3. `Word.unbrokenAll_iff`: it is well formed if and only if no reference is joined. Nothing else
   can go wrong where text meets: an escaped character stays with the one that escapes it, and no
   line ends in the value.
-/

namespace DockerfileSyntax

open Grammar

/-! ## Definitions -/

namespace Token

mutual

/-- The token before others, without its line continuations. Strings that meet become one. -/
def unbroken : Token → List Token → List Token
  | .string text, ts => prependText text ts
  | .leaf kind text, ts => .leaf kind text :: ts
  | .continuation _, ts => ts
  | .node kind children, ts => .node kind (unbrokenAll children) :: ts

/-- The tokens without their line continuations. -/
def unbrokenAll : List Token → List Token
  | [] => []
  | t :: ts => unbroken t (unbrokenAll ts)

end

/-- The last character is a dollar sign, and it is not escaped. -/
def endsInDollar (escape : Char) : Text → Bool
  | [] => false
  | [c] => c == '$'
  | c :: d :: t => if c = escape then endsInDollar escape t else endsInDollar escape (d :: t)

/-- Right behind the token, the text begins a reference or goes on with the name of one. -/
def goesOn (escape : Char) : Token → Text → Bool
  | .string text, next => endsInDollar escape text && startsReference ('$' :: next)
  | .reference false _, c :: _ => isVariableNameChar c
  | _, _ => false

mutual

/-- Without line continuations, a reference would begin or go on where it does not. -/
def joinsReference (escape : Char) : List Token → Bool
  | [] => false
  | t :: ts => joinsWithin escape t || goesOn escape t (valueAll ts) || joinsReference escape ts

/-- The same within a token. -/
def joinsWithin (escape : Char) : Token → Bool
  | .leaf _ _ => false
  | .continuation _ => false
  | .node _ children => joinsReference escape children

end

end Token

open Token

@[simp] theorem Token.unbroken_reference (braced : Bool) (children ts : List Token) :
    unbroken (.reference braced children) ts = .reference braced (unbrokenAll children) :: ts := rfl

theorem Token.unbrokenAll_name {name : Text} (h : isVariableName name = true) :
    unbrokenAll [.string name] = [.string name] := by
  cases name with
  | nil => cases h
  | cons c name => rfl

theorem Token.unbrokenAll_modified {name : Text} (h : isVariableName name = true) (m : Modifier)
    (word : List Token) : unbrokenAll [.string name, .symbol m.symbol, .literal none word] =
      [.string name, .symbol m.symbol, .literal none (unbrokenAll word)] := by
  cases name with
  | nil => cases h
  | cons c name => rfl

/-! ## Evaluation and text -/

section Evaluation

variable {rules : ContentRules} {t : Token} {ts : List Token} {env : Environment}

theorem evaluateAll_prependText (text : Text) (ts : List Token) :
    evaluateAll env (prependText text ts) = evaluateAll env (.string text :: ts) := by
  unfold prependText
  split
  · next more others =>
    simp only [evaluateAll, evaluate]
    cases evaluateAll env others with
    | error unset => rfl
    | ok value => exact congrArg Except.ok (List.append_assoc text more value)
  · split
    · next empty =>
      obtain rfl := List.isEmpty_iff.mp empty
      simp only [evaluateAll, evaluate]
      cases evaluateAll env ts <;> rfl
    · rfl

theorem evaluateAll_unbrokenAll_of (h : ∀ t ∈ ts, ∀ others,
    evaluateAll env (unbroken t others) = evaluateAll env (t :: others)) :
    evaluateAll env (unbrokenAll ts) = evaluateAll env ts := by
  induction ts with
  | nil => rfl
  | cons t ts ih =>
    obtain ⟨first, others⟩ := List.forall_mem_cons.mp h
    rw [unbrokenAll, first, evaluateAll, evaluateAll, ih others]

theorem Part.evaluateAll_unbroken (h : Part rules t) (env : Environment) (others : List Token) :
    evaluateAll env (unbroken t others) = evaluateAll env (t :: others) := by
  induction h generalizing others with
  | string _ _ => exact evaluateAll_prependText _ _
  | continuation _ =>
    simp only [unbroken, evaluateAll, evaluate]
    cases evaluateAll env others <;> rfl
  | bare isName | braced isName => rw [unbroken_reference, unbrokenAll_name isName]
  | @modified rules name m word isName _ _ ih =>
    have same : evaluateAll env (unbrokenAll word) = evaluateAll env word :=
      evaluateAll_unbrokenAll_of fun t ht others => ih t ht others
    rw [unbroken_reference, unbrokenAll_modified isName]
    simp only [evaluateAll, evaluate, same]

/-- Content evaluates to the same without its line continuations, or fails in the same way. -/
theorem Part.evaluateAll_unbrokenAll (h : ∀ t ∈ ts, Part rules t) (env : Environment) :
    evaluateAll env (unbrokenAll ts) = evaluateAll env ts :=
  evaluateAll_unbrokenAll_of fun t ht others => (h t ht).evaluateAll_unbroken env others

theorem renderAll_prependText (text : Text) (ts : List Token) :
    renderAll (prependText text ts) = text ++ renderAll ts := by
  unfold prependText
  split
  · exact List.append_assoc _ _ _
  · split
    · next empty => rw [List.isEmpty_iff.mp empty, List.nil_append]
    · rfl

theorem renderAll_unbrokenAll_of (h : ∀ t ∈ ts, ∀ others,
    renderAll (unbroken t others) = t.value ++ renderAll others) :
    renderAll (unbrokenAll ts) = valueAll ts := by
  induction ts with
  | nil => rfl
  | cons t ts ih =>
    obtain ⟨first, others⟩ := List.forall_mem_cons.mp h
    rw [unbrokenAll, first, valueAll, ih others]

theorem Part.renderAll_unbroken (h : Part rules t) (others : List Token) :
    renderAll (unbroken t others) = t.value ++ renderAll others := by
  induction h generalizing others with
  | string _ _ => exact renderAll_prependText _ _
  | continuation _ => rfl
  | bare isName | braced isName =>
    rw [unbroken_reference, unbrokenAll_name isName]
    rfl
  | @modified rules name m word isName _ _ ih =>
    have same : renderAll (unbrokenAll word) = valueAll word :=
      renderAll_unbrokenAll_of fun t ht others => ih t ht others
    rw [unbroken_reference, unbrokenAll_modified isName]
    simp [same, Quote.mark]

/-- Without its line continuations, content has its value as its text. -/
theorem Part.renderAll_unbrokenAll (h : ∀ t ∈ ts, Part rules t) :
    renderAll (unbrokenAll ts) = valueAll ts :=
  renderAll_unbrokenAll_of fun t ht others => (h t ht).renderAll_unbroken others

end Evaluation

/-! ## Which tokens are left -/

section Form

variable {rules : ContentRules} {ts : List Token}

/-- No line continuation is left. -/
theorem isBreak_of_mem_unbrokenAll : ∀ t ∈ unbrokenAll ts, t.isBreak = false := by
  induction ts with
  | nil => exact fun t ht => absurd ht List.not_mem_nil
  | cons t ts ih =>
    rw [unbrokenAll]
    rcases t with ⟨kind, text⟩ | ⟨kind, children⟩
    · cases kind with
      | string => exact (forall_mem_prependText (fun _ => rfl) text).mpr ih
      | _ => exact List.forall_mem_cons.mpr ⟨rfl, ih⟩
    · cases kind with
      | continuation => exact ih
      | _ => exact List.forall_mem_cons.mpr ⟨rfl, ih⟩

/-- No empty string comes first. -/
theorem head_unbrokenAll_ne (h : ∀ t ∈ ts, Part rules t) :
    (unbrokenAll ts).head? ≠ some (.string []) := by
  induction ts with
  | nil => exact nofun
  | cons t ts ih =>
    obtain ⟨first, others⟩ := List.forall_mem_cons.mp h
    rw [unbrokenAll]
    rcases first.shape with ⟨text, rfl, nonempty, -⟩ | ⟨k, rfl, -⟩ | ⟨braced, children, rfl⟩
    · obtain ⟨c, text, rfl⟩ := List.exists_cons_of_ne_nil nonempty
      show (prependText (c :: text) _).head? ≠ _
      unfold prependText
      split <;> simp
    · exact ih others
    · exact nofun

end Form

/-! ## Where strings meet -/

/-- Whatever ends content under the first rules ends it under the second. -/
structure ContentRules.Widens (rules' rules : ContentRules) : Prop where
  escape : rules'.escape = rules.escape
  spacing : rules.spacing = .content → rules'.spacing = .content
  excluded : ∀ c ∈ rules'.excluded, c ∈ rules.excluded

theorem ContentRules.Widens.refl (rules : ContentRules) : rules.Widens rules :=
  ⟨rfl, id, fun _ => id⟩

section Strings

variable {rules rules' : ContentRules}

/-- A character that stands for itself before one text does so before another, unless it is a
dollar sign and begins a reference there. -/
theorem ContentRules.Widens.startsPlain_iff (wider : rules'.Widens rules) {c : Char} {s t : Text}
    (h : startsPlain rules (c :: s) = true) :
    startsPlain rules' (c :: t) = true ↔ startsReference (c :: t) = false := by
  obtain ⟨notEscape, inLine, allowed, blank, -⟩ := startsPlain_cons.mp h
  rw [startsPlain_cons, wider.escape]
  constructor
  · rintro ⟨-, -, -, -, notReference⟩
    exact notReference
  · intro notReference
    exact ⟨notEscape, inLine, fun hc => allowed (wider.excluded c hc),
      fun hc => wider.spacing (blank hc), notReference⟩

/-- A text behind a string makes one string with it, unless that has a dollar sign at its end with
which the text begins a reference. -/
theorem Spells.append_iff (wider : rules'.Widens rules) {s : Text} (h : Spells rules s) (m : Text) :
    Spells rules' (s ++ m) ↔
      Spells rules' m ∧ (endsInDollar rules.escape s && startsReference ('$' :: m)) = false := by
  induction h with
  | nil => simp [endsInDollar]
  | @pair c t inLine _ ih =>
    have ends : endsInDollar rules.escape (rules.escape :: c :: t) =
        endsInDollar rules.escape t := by
      rw [endsInDollar, if_pos rfl]
    have pair := @spells_pair_iff rules' c (t ++ m)
    rw [wider.escape] at pair
    rw [ends, ← ih, List.cons_append, List.cons_append, pair]
    exact and_iff_right inLine
  | @plain c t notEscape inLine allowed blank notReference spells ih =>
    have plain : startsPlain rules (c :: t) = true :=
      startsPlain_cons.mpr ⟨notEscape, inLine, allowed, blank, notReference⟩
    rw [List.cons_append, spells_plain_iff (by rwa [wider.escape]), wider.startsPlain_iff plain, ih]
    cases t with
    | nil =>
      rw [startsReference_cons, and_comm, endsInDollar, endsInDollar, Bool.false_and]
      exact and_congr_left' (and_iff_left rfl)
    | cons d t =>
      have ends : endsInDollar rules.escape (c :: d :: t) = endsInDollar rules.escape (d :: t) := by
        rw [endsInDollar, if_neg notEscape]
      have same : startsReference (c :: (d :: t ++ m)) = startsReference (c :: d :: t) := by
        rw [startsReference_cons, startsReference_cons c (d :: t)]
        rfl
      rw [ends, same]
      exact and_iff_right notReference

end Strings

/-! ## Well-formed content -/

section Words

variable {rules rules' : ContentRules} {ts : List Token}

/-- A dollar sign stands for itself before content that does not begin with a string. -/
theorem Suffix.startsReference_eq (he : IsEscape rules.escape) (h : Suffix rules ts)
    (notString : ∀ text, ts.head? ≠ some (.string text)) :
    startsReference ('$' :: renderAll ts) = false := by
  have next := (h.next he notString (r := []) nofun).1
  rw [List.append_nil] at next
  rw [← Bool.not_eq_true, startsReference_iff]
  rintro ⟨c, t, text, begins⟩
  obtain ⟨notName, notBrace⟩ := next c (by rw [(List.cons.inj text).2]; rfl)
  rcases begins with rfl | isStart
  · exact notBrace rfl
  · rw [isVariableNameStart_imp isStart] at notName
    cases notName

/-- A reference may stand before content if its name does not go on there. -/
theorem Suffix.mayPrecede_iff (he : IsEscape rules.escape) (h : Suffix rules ts) (braced : Bool)
    (children : List Token) :
    (∀ s, ts.head? = some s → mayPrecede (.reference braced children) s = true) ↔
      goesOn rules.escape (.reference braced children) (renderAll ts) = false := by
  cases braced with
  | true => exact iff_of_true (fun s _ => by cases s <;> rfl) rfl
  | false =>
    by_cases notString : ∀ text, ts.head? ≠ some (.string text)
    · refine iff_of_true (fun s hs => mayPrecede_of_not_string _ ?_) ?_
      · rintro text rfl
        exact notString text hs
      · have next := (h.next he notString (r := []) nofun).1
        rw [List.append_nil] at next
        cases text : renderAll ts with
        | nil => rfl
        | cons c r => exact (next c (by rw [text]; rfl)).1
    · simp only [not_forall, not_not] at notString
      obtain ⟨text, ht⟩ := notString
      obtain ⟨others, rfl⟩ := List.head?_eq_some_iff.mp ht
      obtain ⟨nonempty, -⟩ := part_string_iff.mp (h.parts _ List.mem_cons_self)
      obtain ⟨c, text, rfl⟩ := List.exists_cons_of_ne_nil nonempty
      simp [mayPrecede, goesOn]

/-- A string before content, as a part of its first string if it begins with one. -/
theorem suffix_prependText_iff (wider : rules'.Widens rules) (he : IsEscape rules.escape)
    {text : Text} (nonempty : text ≠ []) (spells : Spells rules text)
    (first : ts.head? ≠ some (.string [])) :
    Suffix rules' (prependText text ts) ↔
      goesOn rules.escape (.string text) (renderAll ts) = false ∧ Suffix rules' ts := by
  unfold prependText
  split
  · next more others =>
    have some : more ≠ [] := by
      rintro rfl
      exact first rfl
    have sameNext : startsReference ('$' :: renderAll (.string more :: others)) =
        startsReference ('$' :: more) := by
      obtain ⟨c, more, rfl⟩ := List.exists_cons_of_ne_nil some
      rfl
    have sameBefore (s : Token) :
        mayPrecede (.string (text ++ more)) s = mayPrecede (.string more) s := by
      rcases s with ⟨kind, text⟩ | ⟨kind, children⟩
      · cases kind <;> rfl
      · rfl
    have joined : text ++ more ≠ [] := by simp [nonempty]
    simp only [Suffix.cons_iff (t := .string _) rfl, part_string_iff, sameBefore, goesOn, sameNext,
      spells.append_iff wider, ne_eq, joined, some, not_false_eq_true, true_and]
    tauto
  · next notString =>
    rw [if_neg (by simpa using nonempty)]
    have other (more : Text) : ts.head? ≠ some (.string more) := fun hm => by
      obtain ⟨others, rfl⟩ := List.head?_eq_some_iff.mp hm
      exact notString more others rfl
    constructor
    · intro h
      have suffix := h.tail
      rw [goesOn, suffix.startsReference_eq (by rwa [wider.escape]) other, Bool.and_false]
      exact ⟨rfl, suffix⟩
    · rintro ⟨-, suffix⟩
      have alone : Spells rules' text := by
        have whole := (spells.append_iff wider []).mpr ⟨.nil, Bool.and_false _⟩
        rwa [List.append_nil] at whole
      refine suffix.cons (.string nonempty alone) (fun s hs => mayPrecede_of_not_string _ ?_) rfl
      rintro more rfl
      exact other more hs

/-- Without its line continuations, the end of a word is the end of one if and only if no reference
is joined, as long as that is so for the words within its references. -/
theorem suffix_unbrokenAll_iff (wider : rules'.Widens rules) (he : IsEscape rules.escape)
    (h : Suffix rules ts) (words : ∀ t ∈ ts, ∀ braced children, t = .reference braced children →
      (Part rules' (.reference braced (unbrokenAll children)) ↔
        joinsReference rules.escape children = false)) :
    Suffix rules' (unbrokenAll ts) ↔ joinsReference rules.escape ts = false := by
  induction ts with
  | nil => exact iff_of_true Suffix.nil rfl
  | cons t ts ih =>
    obtain ⟨first, others⟩ := List.forall_mem_cons.mp words
    have text : valueAll ts = renderAll (unbrokenAll ts) :=
      (Part.renderAll_unbrokenAll h.tail.parts).symm
    rw [unbrokenAll, joinsReference, text, Bool.or_eq_false_iff, Bool.or_eq_false_iff,
      ← ih h.tail others]
    rcases (h.parts t List.mem_cons_self).shape with ⟨text, rfl, nonempty, spells⟩ | ⟨k, rfl, -⟩ |
      ⟨braced, children, rfl⟩
    · show Suffix rules' (prependText text _) ↔ _
      rw [suffix_prependText_iff wider he nonempty spells (head_unbrokenAll_ne h.tail.parts)]
      exact and_congr_left' (and_iff_right rfl).symm
    · exact (and_iff_right ⟨rfl, rfl⟩).symm
    · rw [unbroken_reference, Suffix.cons_iff rfl, first braced children rfl, and_assoc]
      refine and_congr_right fun _ => and_congr_left fun suffix => ?_
      have same (next : Text) :
          goesOn rules.escape (.reference braced (unbrokenAll children)) next =
            goesOn rules.escape (.reference braced children) next := by
        cases braced <;> cases next <;> rfl
      rw [suffix.mayPrecede_iff (by rwa [wider.escape]), wider.escape, same]

theorem word_unbrokenAll_iff (wider : rules'.Widens rules) (he : IsEscape rules.escape)
    (h : Word rules ts) (words : ∀ t ∈ ts, ∀ braced children, t = .reference braced children →
      (Part rules' (.reference braced (unbrokenAll children)) ↔
        joinsReference rules.escape children = false)) :
    Word rules' (unbrokenAll ts) ↔ joinsReference rules.escape ts = false := by
  rw [← suffix_unbrokenAll_iff wider he h.suffix words]
  exact ⟨Word.suffix, fun suffix => suffix.word fun t ht =>
    isBreak_of_mem_unbrokenAll t (List.mem_of_head? ht)⟩

theorem Part.word {name operator : Text} {word : List Token}
    (h : Part rules (.reference true [.string name, .symbol operator, .literal none word])) :
    Word (.word rules.escape) word := by
  cases h with
  | modified m isName parts joined => exact ⟨parts, joined⟩

/-- A well-formed reference is well formed without its line continuations if and only if no
reference is joined within its word. -/
theorem Part.unbrokenAll_iff {t : Token} (h : Part rules t) (he : IsEscape rules.escape)
    (escape : rules'.escape = rules.escape) {braced : Bool} {children : List Token}
    (ht : t = .reference braced children) :
    Part rules' (.reference braced (unbrokenAll children)) ↔
      joinsReference rules.escape children = false := by
  induction h generalizing rules' braced children with
  | string _ _ => cases ht
  | continuation _ => cases ht
  | @bare rules name isName =>
    cases ht
    rw [unbrokenAll_name isName]
    refine iff_of_true (.bare isName) ?_
    simp [joinsReference, joinsWithin, goesOn, startsReference]
  | @braced rules name isName =>
    cases ht
    rw [unbrokenAll_name isName]
    refine iff_of_true (.braced isName) ?_
    simp [joinsReference, joinsWithin, goesOn, startsReference]
  | @modified rules name m word isName parts joined ih =>
    cases ht
    rw [unbrokenAll_modified isName]
    -- the modifier behind the name begins no reference, so only the word is left to look at
    have behind : startsReference ('$' :: (m.symbol ++ valueAll word)) = false := by
      obtain ⟨use, colon⟩ := m
      cases use <;> cases colon <;> rfl
    have inWord : joinsReference rules.escape
        [.string name, .symbol m.symbol, .literal none word] =
          joinsReference rules.escape word := by
      simp [joinsReference, joinsWithin, goesOn, behind]
    have wider : (ContentRules.word rules'.escape).Widens (.word rules.escape) :=
      ⟨escape, id, fun _ => id⟩
    have isWord : Word (.word rules.escape) word := ⟨parts, joined⟩
    have wordIff := word_unbrokenAll_iff wider he isWord
      fun t ht braced children isReference => ih t ht he wider.escape isReference
    rw [inWord]
    refine Iff.trans ⟨Part.word, fun h => ?_⟩ wordIff
    exact .modified m isName h.parts h.joined

/-- A word is a word without its line continuations if and only if no reference is joined. -/
theorem Word.unbrokenAll_iff (wider : rules'.Widens rules) (he : IsEscape rules.escape)
    (h : Word rules ts) :
    Word rules' (unbrokenAll ts) ↔ joinsReference rules.escape ts = false :=
  word_unbrokenAll_iff wider he h fun t ht _ _ isReference =>
    (h.parts t ht).unbrokenAll_iff he wider.escape isReference

/-- Something is left of content, since no line continuation comes first. -/
theorem Word.unbrokenAll_ne_nil (h : Word rules ts) (nonempty : ts ≠ []) : unbrokenAll ts ≠ [] := by
  obtain ⟨t, ts, rfl⟩ := List.exists_cons_of_ne_nil nonempty
  rcases (h.parts t List.mem_cons_self).shape with ⟨text, rfl, some, -⟩ | ⟨k, rfl, -⟩ |
    ⟨braced, children, rfl⟩
  · obtain ⟨more, others, eq⟩ := exists_prependText_eq some (unbrokenAll ts)
    show prependText text _ ≠ []
    rw [eq]
    exact List.cons_ne_nil _ _
  · cases h.joined.first k.toToken rfl
  · exact List.cons_ne_nil _ _

end Words

end DockerfileSyntax
