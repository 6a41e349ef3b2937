import DockerfileSyntax.Proofs.Content.Words

/-!
# What the parser of content reads is well formed

Each parser of the grammar has an equivalence that says what it reads, and from these the induction
on the nesting of words gives `run_content_sound`: content that was read is a word, and it is not
empty.
-/

namespace DockerfileSyntax

namespace Grammar

open DockerfileSyntax.Parser

/-! ## Names and references -/

theorem run_variableName_eq_some {s name r : Text} :
    run variableName s = some (name, r) ↔
      isVariableName name = true ∧ s = name ++ r ∧
        ∀ c, r.head? = some c → isVariableNameChar c = false := by
  rw [variableName]
  constructor
  · intro h
    obtain ⟨head, m, hm, h⟩ := run_bind_eq_some.mp h
    obtain ⟨tail, m', ht, h⟩ := run_bind_eq_some.mp h
    obtain ⟨rfl, rfl⟩ := run_pure_eq_some.mp h
    obtain ⟨rfl, isStart⟩ := run_satisfy_eq_some.mp hm
    obtain ⟨all, stop, rfl⟩ := run_takeWhile_eq_some ht
    refine ⟨?_, rfl, stop⟩
    rw [isVariableName, isStart, List.all_eq_true.mpr all]
    rfl
  · rintro ⟨isName, rfl, stop⟩
    cases name with
    | nil => cases isName
    | cons head tail =>
      obtain ⟨isStart, all⟩ := Bool.and_eq_true_iff.mp isName
      refine run_bind_eq_some.mpr ⟨head, _, run_satisfy_eq_some.mpr ⟨rfl, isStart⟩, ?_⟩
      exact run_bind_eq_some.mpr
        ⟨tail, r, run_takeWhile_append (List.all_eq_true.mp all) stop, rfl⟩

theorem run_bareReference_eq_some {s r : Text} {found : Reference} :
    run bareReference s = some (found, r) ↔
      ∃ name, isVariableName name = true ∧ s = '$' :: (name ++ r) ∧
        (∀ c, r.head? = some c → isVariableNameChar c = false) ∧
        found = ⟨false, [.string name]⟩ := by
  rw [bareReference, run_attempt]
  constructor
  · intro h
    obtain ⟨u, m, hm, h⟩ := run_bind_eq_some.mp h
    obtain ⟨name, m', hn, h⟩ := run_bind_eq_some.mp h
    obtain ⟨rfl, rfl⟩ := run_pure_eq_some.mp h
    obtain ⟨isName, rfl, stop⟩ := run_variableName_eq_some.mp hn
    exact ⟨name, isName, run_eat_eq_some.mp hm, stop, rfl⟩
  · rintro ⟨name, isName, rfl, stop, rfl⟩
    refine run_bind_eq_some.mpr ⟨(), _, run_eat_append ['$'] _, ?_⟩
    exact run_bind_eq_some.mpr ⟨name, r, run_variableName_eq_some.mpr ⟨isName, rfl, stop⟩, rfl⟩

/-- A modifier is read with what the grammar of words reads behind it, or with no word at all. -/
theorem run_modification_eq_some {word : Parser (List Token)} [Regular word] {s r : Text}
    {ts : List Token} :
    run (modification word) s = some (ts, r) ↔
      (ts = [] ∧ r = s ∧ run (choose .modifier Modifier.symbol Modifier.all) s = none) ∨
      ∃ (m : Modifier) (t : Text) (children : List Token),
        run (choose .modifier Modifier.symbol Modifier.all) s = some (m, t) ∧
        ts = [.symbol m.symbol, .literal none children] ∧
        (run word t = some (children, r) ∨ (children = [] ∧ r = t ∧ run word t = none)) := by
  rw [modification, run_optional_bind_eq_some]
  constructor
  · rintro (⟨m, t, hm, h⟩ | ⟨hm, h⟩)
    · obtain ⟨o, t', ho, h⟩ := run_bind_eq_some.mp h
      obtain ⟨rfl, rfl⟩ := run_pure_eq_some.mp h
      refine .inr ⟨m, t, _, hm, rfl, ?_⟩
      obtain ⟨children, rfl, hw⟩ | ⟨rfl, rfl, hw⟩ := run_optional_eq_some.mp ho
      · exact .inl hw
      · exact .inr ⟨rfl, rfl, hw⟩
    · obtain ⟨rfl, rfl⟩ := run_pure_eq_some.mp h
      exact .inl ⟨rfl, rfl, hm⟩
  · rintro (⟨rfl, rfl, hm⟩ | ⟨m, t, children, hm, rfl, hw⟩)
    · exact .inr ⟨hm, rfl⟩
    · refine .inl ⟨m, t, hm, run_bind_eq_some.mpr ?_⟩
      obtain hw | ⟨rfl, rfl, hw⟩ := hw
      · exact ⟨some children, r, run_optional_of_some hw, rfl⟩
      · exact ⟨none, r, run_optional_of_none hw, rfl⟩

theorem run_bracedReference_eq_some {word : Parser (List Token)} [Regular word] {s r : Text}
    {found : Reference} :
    run (bracedReference word) s = some (found, r) ↔
      ∃ name t modified, isVariableName name = true ∧ s = '$' :: '\x7b' :: (name ++ t) ∧
        (∀ c, t.head? = some c → isVariableNameChar c = false) ∧
        run (modification word) t = some (modified, '\x7d' :: r) ∧
        found = ⟨true, .string name :: modified⟩ := by
  rw [bracedReference, run_attempt]
  constructor
  · intro h
    obtain ⟨u, m, hm, h⟩ := run_bind_eq_some.mp h
    obtain ⟨name, t, hn, h⟩ := run_bind_eq_some.mp h
    obtain ⟨modified, t', ht, h⟩ := run_bind_eq_some.mp h
    obtain ⟨u', m', hu, h⟩ := run_bind_eq_some.mp h
    obtain ⟨rfl, rfl⟩ := run_pure_eq_some.mp h
    obtain ⟨isName, rfl, stop⟩ := run_variableName_eq_some.mp hn
    obtain rfl := run_eat_eq_some.mp hu
    exact ⟨name, t, modified, isName, run_eat_eq_some.mp hm, stop, ht, rfl⟩
  · rintro ⟨name, t, modified, isName, rfl, stop, ht, rfl⟩
    refine run_bind_eq_some.mpr ⟨(), _, run_eat_append ['$', '\x7b'] _, ?_⟩
    refine run_bind_eq_some.mpr ⟨name, t, run_variableName_eq_some.mpr ⟨isName, rfl, stop⟩, ?_⟩
    refine run_bind_eq_some.mpr ⟨modified, _, ht, ?_⟩
    exact run_bind_eq_some.mpr ⟨(), r, run_eat_append ['\x7d'] r, rfl⟩

/-- What a grammar of words reads is a word under the rules for words. -/
def ReadsWords (escape : Char) (word : Parser (List Token)) : Prop :=
  ∀ s ts r, run word s = some (ts, r) → Word (.word escape) ts

/-- A reference that was read is well formed, and one without braces has taken all of its name. -/
theorem run_referenceWith_sound {rules : ContentRules} {word : Parser (List Token)} [Regular word]
    (hw : ReadsWords rules.escape word) {s r : Text} {found : Reference}
    (h : run (referenceWith word) s = some (found, r)) :
    Part rules found.toToken ∧
      (found.braced = false → ∀ c, r.head? = some c → isVariableNameChar c = false) := by
  rw [referenceWith, run_firstOf_pair] at h
  rcases Option.or_eq_some_iff.mp h with h | ⟨-, h⟩
  · obtain ⟨name, isName, -, stop, rfl⟩ := run_bareReference_eq_some.mp h
    exact ⟨.bare isName, fun _ => stop⟩
  · obtain ⟨name, t, modified, isName, -, -, hm, rfl⟩ := run_bracedReference_eq_some.mp h
    refine ⟨?_, fun h => absurd h Bool.noConfusion⟩
    rcases run_modification_eq_some.mp hm with ⟨rfl, -, -⟩ | ⟨m, t', children, -, rfl, hc⟩
    · exact .braced isName
    · have isWord : Word (.word rules.escape) children := by
        rcases hc with hc | ⟨rfl, -, -⟩
        · exact hw _ _ _ hc
        · exact Suffix.nil.word (by simp)
      exact .modified m isName isWord.parts isWord.joined

/-! ## Units -/

theorem run_literalChar_eq_some {rules : ContentRules} {s r : Text} {c : Char} :
    run (literalChar rules) s = some (c, r) ↔ startsPlain rules s = true ∧ s = c :: r := by
  rw [run_literalChar]
  split
  · next h => simp [run_satisfy_eq_some, h]
  · next h => simp [h]

theorem run_characterPart_eq_some {rules : ContentRules} {s r : Text} {part : Token} :
    run (characterPart rules) s = some (part, r) ↔
      (∃ c, startsPlain rules s = true ∧ s = c :: r ∧ part = .string [c]) ∨
      (startsPlain rules s = false ∧
        ∃ t, run (escapedChar rules.escape) s = some (t, r) ∧ part = .string t) := by
  rw [characterPart, run_optional_bind_eq_some]
  constructor
  · rintro (⟨c, m, hc, h⟩ | ⟨hc, h⟩)
    · obtain ⟨rfl, rfl⟩ := run_pure_eq_some.mp h
      obtain ⟨plain, rfl⟩ := run_literalChar_eq_some.mp hc
      exact .inl ⟨c, plain, rfl, rfl⟩
    · obtain ⟨t, m', ht, h⟩ := run_bind_eq_some.mp h
      obtain ⟨rfl, rfl⟩ := run_pure_eq_some.mp h
      refine .inr ⟨?_, t, ht, rfl⟩
      obtain ⟨d, -, -, -, rfl⟩ := run_escapedChar_eq_some.mp ht
      cases hp : startsPlain rules (rules.escape :: d :: r) with
      | false => rfl
      | true =>
        rw [run_literalChar_eq_some.mpr ⟨hp, rfl⟩] at hc
        cases hc
  · rintro (⟨c, plain, rfl, rfl⟩ | ⟨notPlain, t, ht, rfl⟩)
    · exact .inl ⟨c, r, run_literalChar_eq_some.mpr ⟨plain, rfl⟩, rfl⟩
    · refine .inr ⟨?_, run_bind_eq_some.mpr ⟨t, r, ht, rfl⟩⟩
      rw [run_literalChar, notPlain]
      rfl

theorem run_unitPart_eq_some {word : Parser (List Token)} [Regular word] {rules : ContentRules}
    {s r : Text} {part : Token} :
    run (unitPart word rules) s = some (part, r) ↔
      (∃ found, run (referenceWith word) s = some (found, r) ∧ part = found.toToken) ∨
      (run (referenceWith word) s = none ∧ run (characterPart rules) s = some (part, r)) := by
  rw [unitPart, run_optional_bind_eq_some]
  constructor
  · rintro (⟨found, m, hf, h⟩ | ⟨hf, h⟩)
    · obtain ⟨rfl, rfl⟩ := run_pure_eq_some.mp h
      exact .inl ⟨found, hf, rfl⟩
    · exact .inr ⟨hf, h⟩
  · rintro (⟨found, hf, rfl⟩ | ⟨none, h⟩)
    · exact .inl ⟨found, r, hf, rfl⟩
    · exact .inr ⟨none, h⟩

/-- A unit is one part of content behind all the line continuations that are there. -/
theorem run_unit_eq_some {word : Parser (List Token)} [Regular word] {rules : ContentRules}
    {s r : Text} {ts : List Token} :
    run (unit word rules) s = some (ts, r) ↔
      ∃ breaks t part, (∀ k ∈ breaks, k.IsBreak rules.escape) ∧
        run (continuation rules.escape) t = none ∧ s = breaksText breaks ++ t ∧
        run (unitPart word rules) t = some (part, r) ∧
        ts = breaks.map Continuation.toToken ++ [part] := by
  rw [unit_eq, run_attempt]
  constructor
  · intro h
    obtain ⟨breaks, t, hb, h⟩ := run_bind_eq_some.mp h
    obtain ⟨part, m, hp, h⟩ := run_bind_eq_some.mp h
    obtain ⟨rfl, rfl⟩ := run_pure_eq_some.mp h
    obtain ⟨all, rfl, stop⟩ := run_continuations_eq_some.mp hb
    exact ⟨breaks, t, part, all, stop, rfl, hp, rfl⟩
  · rintro ⟨breaks, t, part, all, stop, rfl, hp, rfl⟩
    refine run_bind_eq_some.mpr ⟨breaks, t, run_continuations_eq_some.mpr ⟨all, rfl, stop⟩, ?_⟩
    exact run_bind_eq_some.mpr ⟨part, r, hp, rfl⟩

/-- Where white space does not separate, later units are like the first. -/
theorem laterUnit_eq_unit (word : Parser (List Token)) {rules : ContentRules}
    (hs : rules.spacing ≠ .separates) : laterUnit word rules = unit word rules := by
  rw [laterUnit_eq, gapBefore, if_neg hs]
  simp [blankTokens]

theorem run_firstUnit_eq_some {word : Parser (List Token)} [Regular word] {rules : ContentRules}
    {s r : Text} {ts : List Token} :
    run (firstUnit word rules) s = some (ts, r) ↔
      run (continuation rules.escape) s = none ∧ run (unit word rules) s = some (ts, r) := by
  rw [firstUnit, run_attempt, run_bind, run_sees]
  cases h : run (continuation rules.escape) s <;> simp

/-! ## Content -/

theorem exists_prependText_eq {p : Text} (hp : p ≠ []) (ts : List Token) :
    ∃ text others, prependText p ts = .string text :: others := by
  unfold prependText
  split
  · exact ⟨_, _, rfl⟩
  · rw [if_neg (by simpa using hp)]
    exact ⟨_, _, rfl⟩

/-- One more part before the end of a word gives the end of a word, and the part is not lost. -/
theorem suffix_of_unitPart {word : Parser (List Token)} [Regular word] {rules : ContentRules}
    (hw : ReadsWords rules.escape word) {s r : Text} {part : Token} {ts : List Token}
    (h : run (unitPart word rules) s = some (part, Token.renderAll (mergeStrings ts) ++ r))
    (suffix : Suffix rules (mergeStrings ts)) :
    ∃ t others, mergeStrings (part :: ts) = t :: others ∧ t.isBreak = false ∧
      Suffix rules (t :: others) := by
  have string (p : Text) (hp : p ≠ []) (result : Suffix rules (prependText p (mergeStrings ts))) :
      ∃ t others, mergeStrings (.string p :: ts) = t :: others ∧ t.isBreak = false ∧
        Suffix rules (t :: others) := by
    obtain ⟨text, others, eq⟩ := exists_prependText_eq hp (mergeStrings ts)
    exact ⟨_, others, eq, rfl, eq ▸ result⟩
  rcases run_unitPart_eq_some.mp h with ⟨found, hf, rfl⟩ | ⟨-, hc⟩
  · obtain ⟨isPart, stop⟩ := run_referenceWith_sound hw hf
    refine ⟨_, _, rfl, rfl, suffix.cons isPart (fun u hu => ?_) rfl⟩
    -- the name ended where the next token begins, so that one begins with no character of a name
    obtain ⟨others, hu⟩ := List.head?_eq_some_iff.mp hu
    obtain ⟨braced, children⟩ := found
    cases braced with
    | true => rfl
    | false =>
      rcases u with ⟨kind, text⟩ | ⟨kind, children'⟩
      · cases kind <;> try rfl
        cases text with
        | nil => rfl
        | cons c text =>
          have notName := stop rfl c (by rw [hu]; rfl)
          show (!isVariableNameChar c) = true
          rw [notName]
          rfl
      · rfl
  · rcases run_characterPart_eq_some.mp hc with ⟨c, plain, rfl, rfl⟩ | ⟨-, t, ht, rfl⟩
    · exact string [c] (by simp) (suffix.prepend (by simp) (.inl ⟨c, rfl, plain⟩))
    · obtain ⟨c, inLine, -, rfl, -⟩ := run_escapedChar_eq_some.mp ht
      exact string _ (by simp) (suffix.prepend (m := r) (by simp) (.inr ⟨c, rfl, inLine⟩))

/-- The parts of content that come out of one unit after the other are the end of a word. -/
theorem suffix_of_steps {word : Parser (List Token)} [Regular word] {rules : ContentRules}
    (lossless : Lossless word Token.renderAll) (hw : ReadsWords rules.escape word)
    {s r : Text} {items : List (List Token)} (steps : Steps (unit word rules) s items r) :
    Suffix rules (mergeStrings items.flatten) ∧
      s = Token.renderAll (mergeStrings items.flatten) ++ r := by
  refine ⟨?_, ?_⟩
  -- from the last unit to the first: each of them stands before the end of a word
  · induction steps with
    | nil => exact Suffix.nil
    | @cons s m r item items first _ rest ih =>
      have behind : m = Token.renderAll (mergeStrings items.flatten) ++ r := by
        rw [renderAll_mergeStrings, renderAll_flatten]
        exact (lossless_unit lossless rules).steps rest
      obtain ⟨breaks, t, part, all, -, -, hp, rfl⟩ := run_unit_eq_some.mp first
      rw [behind] at hp
      obtain ⟨u, others, eq, -, suffix⟩ := suffix_of_unitPart hw hp ih
      rw [List.flatten_cons, List.append_assoc, mergeStrings_breaks, List.singleton_append, eq]
      exact suffix.breaks (by simp) all
  · rw [renderAll_mergeStrings, renderAll_flatten]
    exact (lossless_unit lossless rules).steps steps

theorem run_contentWith_sound {word : Parser (List Token)} [Regular word] {rules : ContentRules}
    (lossless : Lossless word Token.renderAll) (hw : ReadsWords rules.escape word)
    (hs : rules.spacing ≠ .separates) {s r : Text} {ts : List Token}
    (h : run (contentWith word rules) s = some (ts, r)) : Word rules ts ∧ ts ≠ [] := by
  obtain ⟨item, m, hf, h⟩ := run_bind_eq_some.mp h
  obtain ⟨items, m', hi, h⟩ := run_bind_eq_some.mp h
  obtain ⟨rfl, rfl⟩ := run_pure_eq_some.mp h
  rw [laterUnit_eq_unit word hs, run_many_eq_some] at hi
  obtain ⟨suffix, behind⟩ := suffix_of_steps lossless hw hi.1
  obtain ⟨unbroken, hu⟩ := run_firstUnit_eq_some.mp hf
  obtain ⟨breaks, t, part, all, -, hs, hp, rfl⟩ := run_unit_eq_some.mp hu
  -- a word is an end of a word that does not begin with a line continuation
  cases breaks with
  | cons k breaks =>
    rw [hs, breaksText_cons, List.append_assoc,
      run_continuation_of_isBreak (all k List.mem_cons_self)] at unbroken
    cases unbroken
  | nil =>
    rw [behind] at hp
    obtain ⟨u, others, eq, notBreak, suffix⟩ := suffix_of_unitPart hw hp suffix
    have text : [].map Continuation.toToken ++ [part] ++ items.flatten = part :: items.flatten :=
      rfl
    rw [text, eq]
    refine ⟨suffix.word fun v hv => ?_, by simp⟩
    cases hv
    exact notBreak

/-- What is read as content is a word, and it is not empty. -/
theorem run_content_sound {rules : ContentRules} (hs : rules.spacing ≠ .separates) {s r : Text}
    {ts : List Token} (h : run (content rules) s = some (ts, r)) : Word rules ts ∧ ts ≠ [] := by
  refine (run_content_induction (P := fun rules s ts r => s = Token.renderAll ts ++ r ∧
    (rules.spacing ≠ .separates → Word rules ts ∧ ts ≠ [])) ?_ rules h).2 hs
  intro rules word _ ih s ts r h
  have lossless : Lossless word Token.renderAll := ⟨fun {s r ts} h => (ih s ts r h).1⟩
  refine ⟨(lossless_contentWith lossless rules).append_eq h, fun hs => ?_⟩
  refine run_contentWith_sound lossless (fun s ts r h => ?_) hs h
  exact ((ih s ts r h).2 (by simp [ContentRules.word])).1

theorem readsWords_content (e : Char) : ReadsWords e (content (.word e)) := fun _ _ _ h =>
  (run_content_sound (by simp [ContentRules.word]) h).1

end Grammar

end DockerfileSyntax
