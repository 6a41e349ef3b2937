import DockerfileSyntax.Proofs.Arg.Locality

/-!
# Names that go on below

A line continuation may stand before a later character of a name, but not before an escaped one:
behind line continuations only a character of the class is read, and an escaped character only where
no line continuation begins.

1. `Text.units`: a text cut into its characters and escaped characters. Those of a name are its
   first character and its later ones: `units_of_items`.
2. `run_laterChar_below_escaped`: behind a line continuation no escaped character is read.
3. `Arg.name_accepted_below_iff`: before which units of a name a line may be broken.
-/

namespace DockerfileSyntax

open Grammar DockerfileSyntax.Parser

/-! ## Units of text -/

namespace Text

/-- The characters of the text, read from left to right, each escaped one together with its escape
character. -/
def units (escape : Char) : Text → List Text
  | [] => []
  | [c] => [[c]]
  | c :: d :: t => if c = escape then [c, d] :: units escape t else [c] :: units escape (d :: t)

variable {e : Char}

theorem units_cons {c : Char} (h : c ≠ e) (t : Text) : units e (c :: t) = [c] :: units e t := by
  cases t with
  | nil => rfl
  | cons d t => rw [units, if_neg h]

theorem units_pair (e c : Char) (t : Text) : units e (e :: c :: t) = [e, c] :: units e t := by
  rw [units, if_pos rfl]

end Text

section Units

variable {e : Char} {items : List (List Token)}

/-- Without line continuations, a later character is a character of names or an escaped one. -/
theorem LaterItem.cases_of_unbroken {item : List Token} (h : LaterItem e item)
    (unbroken : ¬ HoldsBreak e (Token.renderAll item)) :
    (∃ c, isArgNameChar c = true ∧ item = [.string [c]]) ∨
      ∃ c, isLineEnd c = false ∧ item = [.string [e, c]] := by
  cases h with
  | @escaped c inLine => exact .inr ⟨c, inLine, rfl⟩
  | @char breaks c all isChar =>
    cases breaks with
    | nil => exact .inl ⟨c, isChar, rfl⟩
    | cons k breaks =>
      refine absurd ⟨k, all k List.mem_cons_self, [], breaksText breaks ++ [c], ?_⟩ unbroken
      simp [breaksText]

/-- The units of later characters without line continuations are the texts of the characters. -/
theorem units_of_items (he : IsEscape e) (all : ∀ item ∈ items, LaterItem e item)
    (unbroken : ¬ HoldsBreak e (Token.renderAll items.flatten)) :
    Text.units e (Token.renderAll items.flatten) = items.map Token.renderAll := by
  induction items with
  | nil => rfl
  | cons item items ih =>
    obtain ⟨isItem, others⟩ := List.forall_mem_cons.mp all
    rw [List.flatten_cons, Token.renderAll_append] at unbroken ⊢
    have behind := ih others fun holds => unbroken (holds.mono (List.infix_append_right ..))
    have here : ¬ HoldsBreak e (Token.renderAll item) :=
      fun holds => unbroken (holds.mono (List.infix_append_left ..))
    rw [List.map_cons, ← behind]
    rcases isItem.cases_of_unbroken here with ⟨c, isChar, rfl⟩ | ⟨c, -, rfl⟩
    · exact Text.units_cons (ne_of_class isChar he.not_isArgNameChar) _
    · exact Text.units_pair e c _

/-- The line does not break where a later character or the end of the text follows. -/
theorem breaksLine_of_items (he : IsEscape e) (all : ∀ item ∈ items, LaterItem e item) :
    breaksLine (Token.renderAll items.flatten) = false := by
  cases items with
  | nil => rfl
  | cons item items =>
    obtain ⟨c, m, text, notBlank, inLine⟩ := (all item List.mem_cons_self).head he
    rw [List.flatten_cons, Token.renderAll_append, text]
    exact breaksLine_of_head notBlank inLine

end Units

/-! ## Below a line continuation -/

section Below

variable {e : Char} {k : Continuation}

/-- Behind a line continuation no escaped character is read as a later one. -/
theorem run_laterChar_below_escaped (he : IsEscape e) (isBreak : k.IsBreak e)
    (excluded : List Char) {t : Text} (unbroken : breaksLine t = false) :
    run (laterChar (argRules e) excluded) (k.toToken.render ++ e :: t) = none := by
  rw [Option.eq_none_iff_forall_ne_some]
  rintro ⟨item, r⟩ h
  rcases run_laterChar_eq_some.mp h with plain | ⟨-, c, -, goesOn, -, text⟩
  · obtain ⟨breaks, c, all, allowed, stop, text, -⟩ := run_charBelow_eq_some.mp plain
    -- the line continuations before a plain character are all there are, and `k` is all there are
    have one : breaksText [k] ++ e :: t = breaksText breaks ++ c :: r := by simpa using text
    have isBreaks : ∀ b ∈ [k], b.IsBreak e := by simpa using isBreak
    obtain ⟨-, same⟩ := breaks_unique isBreaks all (run_continuation_escape unbroken) stop one
    obtain ⟨rfl, -⟩ := List.cons.inj same
    have isChar : isArgNameChar e = true := (Bool.and_eq_true_iff.mp allowed).1
    exact ne_of_class isChar he.not_isArgNameChar rfl
  · have reads := run_continuation_of_isBreak isBreak (e :: t)
    rw [text] at reads
    exact Option.some_ne_none _ (reads.symm.trans (run_continuation_escape goesOn))

end Below

/-! ## Names -/

namespace Arg

variable {e : Char}

/-- A name without quotes and line continuations is a letter and later characters, and they are its
units. -/
theorem exists_items_of_complete (he : IsEscape e) {v : Text} {i : Identifier}
    (accepted : complete (Grammar.argName e) v = .ok i) (bare : i.quote = none)
    (unbroken : ¬ HoldsBreak e v) :
    ∃ (head : Char) (items : List (List Token)), isAlphabetic head = true ∧
      (∀ item ∈ items, LaterItem e item ∧ ¬ HoldsBreak e (Token.renderAll item)) ∧
      i = ⟨none, mergeStrings (.string [head] :: items.flatten)⟩ ∧
      Text.units e v = [head] :: items.map Token.renderAll := by
  obtain ⟨isName, rfl⟩ := name_of_read accepted bare
  obtain ⟨head, items, isFirst, all, children⟩ := isName
  have notEscape := ne_of_class (isArgNameChar_of_isAlphabetic isFirst) he.not_isArgNameChar
  have text : Token.renderAll i.children = head :: Token.renderAll items.flatten := by
    simp [children]
  rw [text] at unbroken ⊢
  have behind : ¬ HoldsBreak e (Token.renderAll items.flatten) :=
    fun holds => unbroken (holds.mono (List.infix_cons List.infix_rfl))
  refine ⟨head, items, isFirst, fun item mem => ⟨all item mem, fun holds => ?_⟩, ?_, ?_⟩
  · have part : Token.renderAll item <:+: Token.renderAll items.flatten := by
      rw [renderAll_flatten]
      exact List.infix_of_mem_flatten (List.mem_map_of_mem mem)
    exact behind (holds.mono part)
  · rw [← bare, ← children]
  · rw [Text.units_cons notEscape, units_of_items he all behind]

/-- A letter and later characters read as a name without quotes, up to where no later character
follows. -/
theorem run_argName_of_items (he : IsEscape e) {head : Char} (isFirst : isAlphabetic head = true)
    {items : List (List Token)} (all : ∀ item ∈ items, LaterItem e item) {r : Text}
    (ends : EndsWell e items r) (stop : run (laterChar (argRules e) (excludedIn none)) r = none) :
    run (Grammar.argName e) (head :: (Token.renderAll items.flatten ++ r)) =
      some (⟨none, mergeStrings (.string [head] :: items.flatten)⟩, r) := by
  have inside := run_nameRun_of_items he (onlyQuotes_excludedIn none) isFirst all ends
    (run_many_of_none stop)
  rw [List.append_nil] at inside
  refine run_bind_eq_some.mpr ⟨(none, _), r, ?_, rfl⟩
  show run (inOptionalQuotes fun quote => nameRun (argRules e) (excludedIn quote)) _ = _
  refine run_inOptionalQuotes_bare (fun quote same => ?_) inside
  exact not_quote_of_isAlphabetic isFirst quote (Option.some.inj same)

/-- Before a character that is not escaped, a line continuation goes with it. -/
theorem complete_argName_below (he : IsEscape e) {head c : Char}
    (isFirst : isAlphabetic head = true) {before behind : List (List Token)}
    (all : ∀ item ∈ before, LaterItem e item) (all' : ∀ item ∈ behind, LaterItem e item)
    (isChar : isArgNameChar c = true) {k : Continuation} (isBreak : k.IsBreak e) :
    complete (Grammar.argName e) (head :: (Token.renderAll before.flatten ++
        (k.toToken.render ++ c :: Token.renderAll behind.flatten))) =
      .ok ⟨none, mergeStrings (.string [head] ::
        (before ++ [k.toToken, .string [c]] :: behind).flatten)⟩ := by
  have below : LaterItem e ([k].map Continuation.toToken ++ [.string [c]]) :=
    .char (by simpa) isChar
  have items : ∀ item ∈ before ++ [k.toToken, .string [c]] :: behind, LaterItem e item :=
    List.forall_mem_append.mpr ⟨all, List.forall_mem_cons.mpr ⟨below, all'⟩⟩
  have read := run_argName_of_items he isFirst items (r := []) (fun _ _ _ => rfl) run_laterChar_nil
  exact complete_eq_ok.mpr (by simpa using read)

/-- Before an escaped character, the name ends where a line continuation begins. -/
theorem not_complete_argName_below (he : IsEscape e) {head c : Char}
    (isFirst : isAlphabetic head = true) {before behind : List (List Token)}
    (all : ∀ item ∈ before, LaterItem e item) (all' : ∀ item ∈ behind, LaterItem e item)
    (inLine : isLineEnd c = false) {k : Continuation} (isBreak : k.IsBreak e) (i : Identifier) :
    complete (Grammar.argName e) (head :: (Token.renderAll before.flatten ++
      (k.toToken.render ++ e :: c :: Token.renderAll behind.flatten))) ≠ .ok i := by
  have unbroken : breaksLine (c :: Token.renderAll behind.flatten) = false := by
    refine breaksLine_append_eq_false (s := [c]) (by simpa using inLine) fun broken => ?_
    rw [breaksLine_of_items he all'] at broken
    cases broken
  have stop := run_laterChar_below_escaped he isBreak (excludedIn none) unbroken
  have ends : EndsWell e before (k.toToken.render ++ e :: c :: Token.renderAll behind.flatten) :=
    fun _ _ _ => isBreak.goesOn he _
  have read := run_argName_of_items he isFirst all ends stop
  intro accepted
  rw [complete_eq_ok.mp accepted] at read
  have rest := (Prod.mk.inj (Option.some.inj read)).2
  simp at rest

/-- In a name without quotes a line continuation may stand before any unit but the first, unless
that is an escaped character; and then it leaves the value as it is. -/
theorem name_accepted_below_iff (he : IsEscape e) {v : Text} {i : Identifier}
    (accepted : complete (Grammar.argName e) v = .ok i) (bare : i.quote = none)
    (unbroken : ¬ HoldsBreak e v) {front back : List Text} {u : Text} (behind : front ≠ [])
    (cut : Text.units e v = front ++ u :: back) {k : Continuation} (isBreak : k.IsBreak e) :
    ((∃ i', complete (Grammar.argName e)
        (front.flatten ++ k.toToken.render ++ (u :: back).flatten) = .ok i') ↔
      u.head? ≠ some e) ∧
    ∀ i', complete (Grammar.argName e)
        (front.flatten ++ k.toToken.render ++ (u :: back).flatten) = .ok i' →
      i'.quote = none ∧ i'.value = i.value := by
  obtain ⟨head, items, isFirst, all, rfl, units⟩ :=
    exists_items_of_complete he accepted bare unbroken
  obtain ⟨first, front, rfl⟩ := List.exists_cons_of_ne_nil behind
  obtain ⟨rfl, tails⟩ := List.cons.inj (units.symm.trans cut)
  obtain ⟨before, others, rfl, rfl, rest⟩ := List.map_eq_append_iff.mp tails
  obtain ⟨item, later, rfl, rfl, rfl⟩ := List.map_eq_cons_iff.mp rest
  obtain ⟨inFront, here, below⟩ : (∀ item ∈ before, LaterItem e item) ∧
      (LaterItem e item ∧ ¬ HoldsBreak e (Token.renderAll item)) ∧
      ∀ item ∈ later, LaterItem e item :=
    ⟨fun item mem => (all item (by simp [mem])).1, all item (by simp),
      fun item mem => (all item (by simp [mem])).1⟩
  have text : ([head] :: before.map Token.renderAll).flatten ++ k.toToken.render ++
      (Token.renderAll item :: later.map Token.renderAll).flatten =
      head :: (Token.renderAll before.flatten ++ (k.toToken.render ++
        (Token.renderAll item ++ Token.renderAll later.flatten))) := by
    simp [renderAll_flatten, List.flatMap_def]
  rw [text]
  rcases here.1.cases_of_unbroken here.2 with ⟨c, isChar, rfl⟩ | ⟨c, inLine, rfl⟩
  · have read := complete_argName_below he isFirst inFront below isChar isBreak
    have notEscape := ne_of_class isChar he.not_isArgNameChar
    refine ⟨iff_of_true ⟨_, read⟩ fun same => notEscape (Option.some.inj same), fun i' read' => ?_⟩
    obtain rfl := Except.ok.inj (read.symm.trans read')
    exact ⟨rfl, by simp [Identifier.value, Identifier.toToken, Continuation.toToken]⟩
  · have refused := not_complete_argName_below he isFirst inFront below inLine isBreak
    refine ⟨iff_of_false ?_ fun differs => differs rfl, fun i' read => absurd read (refused i')⟩
    rintro ⟨i', read⟩
    exact refused i' read

/-- The line may be broken before the last unit of `x\yz`, and not before the escaped `y`. -/
theorem name_accepted_below_sample :
    Text.units '\\' "x\\yz".toList = [['x'], ['\\', 'y'], ['z']] ∧
    (∃ i', complete (Grammar.argName '\\') "x\\y\\\nz".toList = .ok i' ∧
      i'.value = "x\\yz".toList) ∧
    ¬ ∃ i', complete (Grammar.argName '\\') "x\\\n\\yz".toList = .ok i' := by
  have accepted : complete (Grammar.argName '\\') "x\\yz".toList =
      .ok ⟨none, [.string "x\\yz".toList]⟩ :=
    complete_eq_ok.mpr (by decide +kernel)
  have unbroken : ¬ HoldsBreak '\\' "x\\yz".toList := fun holds =>
    absurd holds.newLine_mem (by decide)
  have isBreak : (Continuation.broken '\\' [] ['\n']).IsBreak '\\' :=
    ⟨[], ['\n'], List.forall_mem_nil _, by decide, rfl⟩
  have he : IsEscape '\\' := .inl rfl
  have beforeLast : Text.units '\\' "x\\yz".toList = [['x'], ['\\', 'y']] ++ ['z'] :: [] := rfl
  have beforePair : Text.units '\\' "x\\yz".toList = [['x']] ++ ['\\', 'y'] :: [['z']] := rfl
  obtain ⟨plain, same⟩ :=
    name_accepted_below_iff he accepted rfl unbroken (by simp) beforeLast isBreak
  obtain ⟨escaped, -⟩ :=
    name_accepted_below_iff he accepted rfl unbroken (by simp) beforePair isBreak
  obtain ⟨i', read⟩ := plain.mpr (by decide)
  exact ⟨rfl, ⟨i', read, (same i' read).2⟩, fun some => escaped.mp some rfl⟩

/-- `x\a` is a name, and with a line continuation between its two units it is none. -/
theorem name_refused_below :
    complete (Grammar.argName '\\') ['x', '\\', 'a'] = .ok ⟨none, [.string ['x', '\\', 'a']]⟩ ∧
    Text.units '\\' ['x', '\\', 'a'] = [['x'], ['\\', 'a']] ∧
    (Continuation.broken '\\' [] ['\n']).IsBreak '\\' ∧
    ¬ ∃ i', complete (Grammar.argName '\\') (['x'] ++
      (Continuation.broken '\\' [] ['\n']).toToken.render ++ ['\\', 'a']) = .ok i' := by
  refine ⟨complete_eq_ok.mpr (by decide +kernel), rfl,
    ⟨[], ['\n'], List.forall_mem_nil _, by decide, rfl⟩, ?_⟩
  rintro ⟨i', read⟩
  have refused : (run (Grammar.argName '\\') "x\\\n\\a".toList).map Prod.snd ≠ some [] := by
    decide +kernel
  refine refused ?_
  exact congrArg (Option.map Prod.snd) (complete_eq_ok.mp read)

end Arg

end DockerfileSyntax
