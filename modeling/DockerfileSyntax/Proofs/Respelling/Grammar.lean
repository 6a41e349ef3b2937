import DockerfileSyntax.Proofs.Reading.Grammar
import DockerfileSyntax.Proofs.Respelling.Tokens
import DockerfileSyntax.StartPeriod

/-!
# The grammars in another spelling

Each grammar, given the escape character of the other spelling, does on the other spelling of a text
what it does on the text. No grammar names an escape character of its own, and none tells `\n` from
`\r\n` anywhere but in the text of a line end.
-/

namespace DockerfileSyntax

namespace Respelling

open DockerfileSyntax.Parser

variable {T : Respelling} {α β : Type}

theorem carries_pure_of {f : α → β} {a : α} {b : β} (h : f a = b) :
    T.Carries f (pure a) (pure b) :=
  h ▸ carries_pure a

/-- A text of characters that are spelled alike. -/
theorem map_char_eq {t : Text} (h : ∀ c ∈ t, ¬ IsEscape c) : t.map T.char = t := by
  rw [List.map_congr_left fun c hc => T.char_eq (h c hc), List.map_id']

theorem respects_quote (quote : Quote) : T.Respects (· == quote.char) (· == quote.char) := by
  cases quote <;> exact respects (by decide) (by decide) (by decide)

/-- A list without escape characters has a character if and only if it has the other spelling. -/
theorem contains_char {excluded : List Char} (hx : ∀ c ∈ excluded, ¬ IsEscape c) (c : Char) :
    excluded.contains (T.char c) = excluded.contains c := by
  have apart {d : Char} (hd : IsEscape d) : excluded.contains d = false := by
    simp only [List.contains_eq_mem, decide_eq_false_iff_not]
    exact fun mem => hx d mem hd
  by_cases hc : IsEscape c
  · rw [apart hc, apart (T.isEscape_char hc)]
  · rw [T.char_eq hc]

/-- The characters of a class without the ones excluded. -/
theorem Respects.without {holds holds' : Char → Bool} (h : T.Respects holds holds')
    {excluded : List Char} (hx : ∀ c ∈ excluded, ¬ IsEscape c) :
    T.Respects (fun c => holds c && !excluded.contains c)
      fun c => holds' c && !excluded.contains c :=
  ⟨fun c => by rw [h.same, contains_char hx], by simp [h.lineFeed], by simp [h.return_]⟩

/-- Text that is written alike in all spellings: no escape character and no part of a line end. -/
def isMark (t : Text) : Bool := t.all fun c => !(c == '\\' || c == '`' || isLineEnd c)

theorem not_isEscape_of_isMark {t : Text} (h : isMark t = true) : ∀ c ∈ t, ¬ IsEscape c := by
  intro c hc isEscape
  have plain := List.all_eq_true.mp h c hc
  rcases isEscape with rfl | rfl <;> cases plain

theorem not_mem_of_isMark {t : Text} (h : isMark t = true) {c : Char} (hc : isLineEnd c = true) :
    c ∉ t := by
  intro mem
  have plain := List.all_eq_true.mp h c mem
  simp [hc] at plain

theorem not_isEscape_excludedIn (quote : Option Quote) :
    ∀ c ∈ Grammar.excludedIn quote, ¬ IsEscape c :=
  not_isEscape_of_isMark (by rcases quote with _ | _ | _ <;> rfl)

/-! ## Line ends -/

/-- A line end is written in the other spelling as the text of a line end becomes. -/
theorem text_lineEnd {t r : Text} (h : T.Admits (t ++ r)) (mem : t ∈ lineEnds) :
    T.text t = T.newLine t ∧ T.newLine t ∈ lineEnds := by
  simp only [lineEnds, List.mem_cons, List.not_mem_nil, or_false] at mem
  rcases mem with rfl | rfl
  · have returns : T.returns = true := by
      cases hr : T.returns with
      | true => rfl
      | false => exact absurd List.mem_cons_self (h hr)
    rw [T.newLine_both returns]
    exact ⟨by simp [text, T.lineEnd_eq returns, char_return], by decide⟩
  · rw [T.newLine_lineFeed]
    exact ⟨by simp [text], T.lineEnd_mem⟩

/-- A line end in the other spelling is one in this spelling. -/
theorem exists_lineEnd {s t' r' : Text} (mem : t' ∈ lineEnds) (h : T.text s = t' ++ r') :
    ∃ t ∈ lineEnds, ∃ r, s = t ++ r := by
  simp only [lineEnds, List.mem_cons, List.not_mem_nil, or_false] at mem
  cases s with
  | nil => rcases mem with rfl | rfl <;> cases h
  | cons c s =>
    by_cases hc : c = '\n'
    · exact ⟨['\n'], by decide, s, by rw [hc]; rfl⟩
    rw [text_cons_of_ne hc] at h
    rcases mem with rfl | rfl
    · obtain ⟨first, behind⟩ := List.cons.inj h
      have isReturn : c = '\r' := T.char_injective (first.trans char_return.symm)
      cases s with
      | nil => cases behind
      | cons d s =>
        by_cases hd : d = '\n'
        · exact ⟨['\r', '\n'], by decide, s, by rw [isReturn, hd]; rfl⟩
        rw [text_cons_of_ne hd] at behind
        exact absurd (char_eq_lineFeed_iff.mp (List.cons.inj behind).1) hd
    · exact absurd (char_eq_lineFeed_iff.mp (List.cons.inj h).1) hc

end Respelling

namespace Grammar

open DockerfileSyntax.Parser
open Respelling (carries_pure carries_pure_of carries_fail carries_satisfy carries_takeWhile
  carries_eat carries_eat_same carries_choose carries_peek_bind respects)

variable {T : Respelling} {α β : Type}

theorem newLine_of_lineEnd {c : Cursor} {t r : Text} (mem : t ∈ lineEnds) (h : c.rest = t ++ r) :
    newLine c = .ok t (c.pass t) := by
  simp only [lineEnds, List.mem_cons, List.not_mem_nil, or_false] at mem
  rcases mem with rfl | rfl <;> rw [newLine, choose, h] <;> rfl

theorem newLine_of_none {c : Cursor} (h : ∀ t ∈ lineEnds, ∀ r, c.rest ≠ t ++ r) :
    newLine c = fail .newLine c := by
  have none : (lineEnds.find? fun t => (id t).isPrefixOf c.rest) = none := by
    refine List.find?_eq_none.mpr fun t mem isPrefix => ?_
    obtain ⟨r, hr⟩ := List.isPrefixOf_iff_prefix.mp isPrefix
    exact h t mem r hr.symm
  rw [lineEnds] at none
  rw [newLine, choose, none]

/-! ## Trivia -/

/-- Line ends are written as they are or as the other spelling has them. -/
theorem carries_newLine : T.Carries T.newLine newLine newLine := by
  refine ⟨fun {c c'} hc => ?_⟩
  have rest := hc.place.rest
  by_cases h : ∃ t ∈ lineEnds, ∃ r, c.rest = t ++ r
  · obtain ⟨t, mem, r, hr⟩ := h
    obtain ⟨same, mem'⟩ := Respelling.text_lineEnd (hr ▸ hc.place.admits) mem
    have hr' : c'.rest = T.newLine t ++ T.text r := by rw [rest, hr, Respelling.text_append, same]
    rw [newLine_of_lineEnd mem hr, newLine_of_lineEnd mem' hr']
    refine .ok ⟨hc.place.pass hr same fun q => ?_, hc.furthest⟩
    rw [Respelling.after_lineEnd q mem, Respelling.after_lineEnd q mem']
  · have h' : ∀ t ∈ lineEnds, ∀ r, c'.rest ≠ t ++ r := by
      intro t mem r hr
      rw [rest] at hr
      exact h (Respelling.exists_lineEnd mem hr)
    rw [newLine_of_none fun t mem r hr => h ⟨t, mem, r, hr⟩, newLine_of_none h']
    exact (carries_fail _ _).run hc

theorem respects_isInlineBlank : T.Respects isInlineBlank isInlineBlank :=
  respects (by decide) (by decide) (by decide)

theorem respects_not_isLineEnd : T.Respects (fun c => !isLineEnd c) fun c => !isLineEnd c :=
  respects (by decide) (by decide) (by decide)

theorem carries_blanks : T.Carries (List.map T.char) blanks blanks :=
  carries_takeWhile respects_isInlineBlank

theorem carries_optionalNewLine :
    T.Carries (List.map T.trivia) optionalNewLine optionalNewLine :=
  carries_newLine.bind_optional (carries_pure_of rfl) fun _ => carries_pure_of rfl

theorem carries_blankRun : T.Carries (List.map T.trivia) blankRun blankRun :=
  carries_blanks.bind fun gap => carries_pure_of (T.trivia_ofBlanks gap)

theorem carries_whitespace : T.Carries (List.map T.trivia) whitespace whitespace :=
  carries_blanks.bind fun gap => carries_optionalNewLine.bind fun ending =>
    carries_pure_of (by rw [List.map_append, T.trivia_ofBlanks])

theorem carries_comment : T.Carries (List.map T.char) comment comment := by
  refine carries_peek_bind fun s => ?_
  have mark : ((T.text s).head? = some '#') = (s.head? = some '#') := by
    cases s with
    | nil => rfl
    | cons c s =>
      have same : T.char c = '#' ↔ c = '#' := by
        have hash : T.char '#' = '#' := T.char_eq (by decide)
        exact ⟨fun h => T.char_injective (h.trans hash.symm), fun h => h ▸ hash⟩
      rcases Respelling.text_cons (T := T) c s with h | ⟨rfl, h⟩
      · simp [h, same]
      · simp [h]
  simp only [mark]
  split
  · exact carries_takeWhile respects_not_isLineEnd
  · exact carries_fail _ _

theorem carries_commentLine : T.Carries (List.map T.trivia) commentLine commentLine :=
  .attempt <| carries_whitespace.bind fun leading => carries_comment.bind fun text =>
    carries_optionalNewLine.bind fun ending => carries_pure_of (by simp [Respelling.trivia])

theorem carries_trailingComments :
    T.Carries (List.map T.trivia) trailingComments trailingComments :=
  carries_commentLine.many.bind fun _ => carries_pure_of List.map_flatten

theorem carries_blankLine : T.Carries (List.map T.trivia) blankLine blankLine :=
  .attempt <| carries_blanks.bind fun leading => carries_newLine.bind fun ending =>
    carries_pure_of (by simp [T.trivia_ofBlanks, Respelling.trivia])

theorem carries_interludes : T.Carries (List.map T.trivia) interludes interludes :=
  (carries_commentLine.firstOf_pair carries_blankLine).many.bind fun _ =>
    carries_pure_of List.map_flatten

/-! ## Behind the escape character -/

section

variable {e : Char} (he : IsEscape e)

include he

theorem carries_continuation :
    T.Carries T.continuation (continuation e) (continuation (T.char e)) := by
  have mark : T.Carries id (eat [e]) (eat [T.char e]) :=
    carries_eat (by rcases he with rfl | rfl <;> decide) (by rcases he with rfl | rfl <;> decide)
  refine .attempt (mark.bind fun _ => carries_blanks.bind fun gap =>
    carries_newLine.bind fun ending =>
    carries_pure_of ?_)
  simp [Respelling.continuation, Respelling.tokens, T.tokens_blankTokens]

theorem carries_continuations : T.Carries (List.map T.continuation) (continuations e)
    (continuations (T.char e)) :=
  (carries_continuation he).many

theorem carries_optionalContinuation : T.Carries (List.map T.trivia) (optionalContinuation e)
    (optionalContinuation (T.char e)) :=
  (carries_continuation he).bind_optional (carries_pure_of rfl) fun _ => carries_pure_of rfl

theorem carries_escapedChar :
    T.Carries (List.map T.char) (escapedChar e) (escapedChar (T.char e)) := by
  refine (carries_continuation he).sees.bind fun b => ?_
  cases b with
  | true => exact carries_fail .escapedChar .escapedChar
  | false =>
    exact .attempt <| (carries_satisfy (Respelling.respects_escape he)).bind fun mark =>
      (carries_satisfy respects_not_isLineEnd).bind fun escaped => carries_pure_of rfl

theorem carries_charBelow {what what' : Expectation} {holds holds' : Char → Bool}
    (h : T.Respects holds holds') :
    T.Carries (T.tokens false) (charBelow e what holds) (charBelow (T.char e) what' holds') :=
  .attempt <| (carries_continuations he).bind fun breaks => (carries_satisfy h).bind fun found =>
    carries_pure_of (by simp [T.tokens_continuations, Respelling.tokens])

end

/-! ## References and content -/

/-- The rules for content in the other spelling. -/
def respelled (T : Respelling) (rules : ContentRules) : ContentRules :=
  ⟨T.char rules.escape, rules.spacing, rules.excluded⟩

/-- The rules tell no escape character from the other one. -/
structure Neutral (rules : ContentRules) : Prop where
  escape : IsEscape rules.escape
  excluded : ∀ c ∈ rules.excluded, ¬ IsEscape c

theorem neutral_word {e : Char} (he : IsEscape e) : Neutral (.word e) :=
  ⟨he, Respelling.not_isEscape_of_isMark (t := ['\x7d']) rfl⟩

theorem respects_isVariableNameStart : T.Respects isVariableNameStart isVariableNameStart :=
  respects (by decide) (by decide) (by decide)

theorem respects_isVariableNameChar : T.Respects isVariableNameChar isVariableNameChar :=
  respects (by decide) (by decide) (by decide)

theorem carries_variableName : T.Carries (List.map T.char) variableName variableName :=
  (carries_satisfy respects_isVariableNameStart).bind fun _ =>
    (carries_takeWhile respects_isVariableNameChar).bind fun _ => carries_pure_of rfl

theorem carries_mark {t : Text} (h : Respelling.isMark t = true) : T.Carries id (eat t) (eat t) :=
  carries_eat_same (Respelling.map_char_eq (Respelling.not_isEscape_of_isMark h))
    (Respelling.not_mem_of_isMark h rfl) (Respelling.not_mem_of_isMark h rfl)

theorem carries_bareReference : T.Carries T.reference bareReference bareReference :=
  .attempt <| (carries_mark rfl).bind fun _ =>
    carries_variableName.bind fun name =>
      carries_pure_of (by simp [Respelling.reference, Respelling.tokens])

theorem isMark_symbol (m : Modifier) : Respelling.isMark m.symbol = true := by
  obtain ⟨use, colon⟩ := m
  cases use <;> cases colon <;> rfl

theorem map_char_symbol (m : Modifier) : m.symbol.map T.char = m.symbol :=
  Respelling.map_char_eq (Respelling.not_isEscape_of_isMark (isMark_symbol m))

theorem carries_modifier : T.Carries id (choose .modifier Modifier.symbol Modifier.all)
    (choose .modifier Modifier.symbol Modifier.all) :=
  carries_choose map_char_symbol (fun m => Respelling.not_mem_of_isMark (isMark_symbol m) rfl)
    fun m => Respelling.not_mem_of_isMark (isMark_symbol m) rfl

section

variable {word word' : Parser (List Token)} (hw : T.Carries (T.tokens false) word word')

include hw

theorem carries_modification :
    T.Carries (T.tokens false) (modification word) (modification word') := by
  refine carries_modifier.bind_optional (carries_pure_of rfl) fun m => ?_
  refine hw.optional.bind fun children => carries_pure_of ?_
  simp only [Respelling.tokens, Respelling.token_symbol, map_char_symbol]
  cases children <;> rfl

theorem carries_bracedReference :
    T.Carries T.reference (bracedReference word) (bracedReference word') :=
  .attempt <| (carries_mark rfl).bind fun _ =>
    carries_variableName.bind fun name => (carries_modification hw).bind fun modified =>
      (carries_mark rfl).bind fun _ =>
        carries_pure_of (by simp [Respelling.reference, Respelling.tokens])

theorem carries_referenceWith :
    T.Carries T.reference (referenceWith word) (referenceWith word') :=
  carries_bareReference.firstOf_pair (carries_bracedReference hw)

end

theorem startsReference_text (s : Text) : startsReference (T.text s) = startsReference s := by
  have dollar : T.char '$' = '$' := T.char_eq (by decide)
  have opens : T.Respects (fun c => c == '\x7b' || isVariableNameStart c)
      fun c => c == '\x7b' || isVariableNameStart c :=
    respects (by decide) (by decide) (by decide)
  have notDollar {c : Char} (hc : c ≠ '$') (s : Text) : startsReference (c :: s) = false := by
    unfold startsReference
    split
    · next h => exact absurd (List.cons.inj h).1 hc
    · rfl
  cases s with
  | nil => rfl
  | cons c s =>
    rcases Respelling.text_cons (T := T) c s with h | ⟨rfl, h⟩
    · by_cases hc : c = '$'
      · rw [h, hc, dollar]
        cases s with
        | nil => rfl
        | cons d s =>
          rcases Respelling.text_cons (T := T) d s with h | ⟨rfl, h⟩
          · rw [h]
            exact opens.same d
          · rw [h]
            rfl
      · have hc' : T.char c ≠ '$' := fun h => hc (T.char_injective (h.trans dollar.symm))
        rw [h, notDollar hc, notDollar hc']
    · rw [h]
      rfl

theorem startsPlain_text {rules : ContentRules} (h : Neutral rules) (s : Text) :
    startsPlain (respelled T rules) (T.text s) = startsPlain rules s := by
  cases s with
  | nil => rfl
  | cons c s =>
    have reference := startsReference_text (T := T) (c :: s)
    rcases Respelling.text_cons (T := T) c s with spelled | ⟨rfl, spelled⟩
    · have escape := (Respelling.respects_escape (T := T) h.escape).same c
      have lineEnd := (respects_not_isLineEnd (T := T)).same c
      have blank := (respects_isInlineBlank (T := T)).same c
      have excluded := Respelling.contains_char (T := T) h.excluded c
      rw [Bool.not_inj_iff] at lineEnd
      rw [spelled] at reference ⊢
      show (if T.char c == T.char rules.escape || isLineEnd (T.char c) ||
          rules.excluded.contains (T.char c) then false
        else if isInlineBlank (T.char c) then rules.spacing == .content
        else !startsReference (T.char c :: T.text s)) = startsPlain rules (c :: s)
      rw [escape, lineEnd, excluded, blank, reference, startsPlain]
    · rw [spelled]
      simp [startsPlain, isLineEnd]

theorem carries_literalChar {rules : ContentRules} (h : Neutral rules) :
    T.Carries T.char (literalChar rules) (literalChar (respelled T rules)) := by
  -- a character that stands for itself is no line end
  have guarded (rules : ContentRules) (c : Cursor) : literalChar rules c =
      if startsPlain rules c.rest then satisfy .literalChar (fun c => !isLineEnd c) c
      else fail .literalChar c := by
    rw [literalChar_apply]
    by_cases hp : startsPlain rules c.rest = true
    · rw [if_pos hp, if_pos hp, satisfy, satisfy]
      cases hr : c.rest with
      | nil => rfl
      | cons found r =>
        have noEnd : isLineEnd found = false := by
          rw [hr, startsPlain] at hp
          cases isEnd : isLineEnd found with
          | false => rfl
          | true => simp [isEnd] at hp
        simp [noEnd]
    · rw [if_neg hp, if_neg hp]
  refine ⟨fun {c c'} hc => ?_⟩
  rw [guarded, guarded, hc.place.rest, startsPlain_text h]
  split
  · exact (carries_satisfy respects_not_isLineEnd).run hc
  · exact (carries_fail _ _).run hc

section

variable {word word' : Parser (List Token)} (hw : T.Carries (T.tokens false) word word')
  {rules : ContentRules} (h : Neutral rules)

include hw h

theorem carries_unit :
    T.Carries (T.tokens false) (unit word rules) (unit word' (respelled T rules)) := by
  refine .attempt ((carries_continuations h.escape).bind fun breaks => ?_)
  refine (carries_referenceWith hw).bind_optional ?_ fun reference => carries_pure_of ?_
  · refine (carries_literalChar h).bind_optional ?_ fun found => carries_pure_of ?_
    · refine (carries_escapedChar h.escape).bind fun escaped => carries_pure_of ?_
      simp [T.tokens_continuations, Respelling.tokens]
    · simp [T.tokens_continuations, Respelling.tokens]
  · simp [T.tokens_continuations, Respelling.tokens, T.token_reference]

theorem carries_firstUnit :
    T.Carries (T.tokens false) (firstUnit word rules) (firstUnit word' (respelled T rules)) := by
  refine .attempt ((carries_continuation h.escape).sees.bind fun b => ?_)
  cases b with
  | true => exact carries_fail .literal .literal
  | false => exact carries_unit hw h

theorem carries_laterUnit :
    T.Carries (T.tokens false) (laterUnit word rules) (laterUnit word' (respelled T rules)) := by
  have gap : T.Carries (List.map T.char) (gapBefore rules) (gapBefore (respelled T rules)) := by
    unfold gapBefore
    show T.Carries _ (if rules.spacing = .separates then _ else _)
      (if rules.spacing = .separates then _ else _)
    split
    · exact carries_blanks
    · exact carries_pure_of rfl
  rw [laterUnit_eq, laterUnit_eq]
  exact gap.bind fun gap => (carries_unit hw h).bind fun parts =>
    carries_pure_of (by simp [T.tokens_blankTokens])

theorem carries_contentWith [Regular word] :
    T.Carries (T.tokens false) (contentWith word rules) (contentWith word' (respelled T rules)) :=
  (carries_firstUnit hw h).bind fun first => (carries_laterUnit hw h).many.bind fun others =>
    carries_pure_of (by simp [T.tokens_mergeStrings, T.tokens_flatten])

end

theorem regular_contentUpTo (n : Nat) (rules : ContentRules) : Regular (contentUpTo n rules) := by
  induction n generalizing rules with
  | zero => exact regular_fail .literal
  | succ n ih =>
    have := ih (.word rules.escape)
    rw [contentUpTo]
    infer_instance

theorem carries_contentUpTo (n : Nat) {rules : ContentRules} (h : Neutral rules) :
    T.Carries (T.tokens false) (contentUpTo n rules) (contentUpTo n (respelled T rules)) := by
  induction n generalizing rules with
  | zero => exact carries_fail .literal .literal
  | succ n ih =>
    have := regular_contentUpTo n (.word rules.escape)
    exact carries_contentWith (ih (neutral_word h.escape)) h

theorem carries_content {rules : ContentRules} (h : Neutral rules) :
    T.Carries (T.tokens false) (content rules) (content (respelled T rules)) := by
  refine ⟨fun {c c'} hc => ?_⟩
  -- in neither of the two texts do words nest deeper than both are long
  have deep : c.left < c.left + c'.left + 1 ∧ c'.left < c.left + c'.left + 1 := by omega
  rw [(agreeUpTo_contentUpTo rules deep.1 c (Nat.le_refl _)).1,
    (agreeUpTo_contentUpTo (respelled T rules) deep.2 c' (Nat.le_refl _)).1]
  exact (carries_contentUpTo _ h).run hc

/-! ## Literals, names and keywords -/

theorem carries_inOptionalQuotes_go {f : α → β} {inner : Option Quote → Parser α}
    {inner' : Option Quote → Parser β} (h : ∀ quote, T.Carries f (inner quote) (inner' quote))
    (quotes : List Quote) :
    T.Carries (Prod.map id f) (inOptionalQuotes.go inner quotes)
      (inOptionalQuotes.go inner' quotes) := by
  induction quotes with
  | nil => exact (h none).bind fun _ => carries_pure_of rfl
  | cons quote quotes ih =>
    unfold inOptionalQuotes.go
    have mark (what : Expectation) : T.Carries T.char (satisfy what (· == quote.char))
        (satisfy what (· == quote.char)) := carries_satisfy (Respelling.respects_quote quote)
    exact ((mark _).bind fun _ => (h (some quote)).bind fun found =>
      (mark _).bind fun _ => carries_pure found).bind_optional ih fun _ => carries_pure_of rfl

theorem carries_inOptionalQuotes {f : α → β} {inner : Option Quote → Parser α}
    {inner' : Option Quote → Parser β} (h : ∀ quote, T.Carries f (inner quote) (inner' quote)) :
    T.Carries (Prod.map id f) (inOptionalQuotes inner) (inOptionalQuotes inner') :=
  carries_inOptionalQuotes_go h Quote.all

theorem not_isEscape_quote (quote : Quote) : ¬ IsEscape quote.char := by
  cases quote <;> decide

section

variable {e : Char} (he : IsEscape e)

include he

theorem carries_literalContent (spacing : Spacing) {excluded : List Char}
    (hx : ∀ c ∈ excluded, ¬ IsEscape c) (quote : Option Quote) :
    T.Carries (T.tokens false) (literalContent e spacing excluded quote)
      (literalContent (T.char e) spacing excluded quote) := by
  cases quote with
  | some quote =>
    have neutral : Neutral (.quoted e quote) :=
      ⟨he, by simpa [ContentRules.quoted] using not_isEscape_quote quote⟩
    refine (carries_content neutral).optional.bind fun children => carries_pure_of ?_
    cases children <;> rfl
  | none =>
    have neutral : Neutral (.bare e spacing excluded) := by
      refine ⟨he, ?_⟩
      simp only [ContentRules.bare, List.mem_append]
      rintro c (hc | hc)
      · exact hx c hc
      · obtain ⟨quote, -, rfl⟩ := List.mem_map.mp hc
        exact not_isEscape_quote quote
    exact carries_content neutral

theorem carries_literal (spacing : Spacing) {excluded : List Char}
    (hx : ∀ c ∈ excluded, ¬ IsEscape c) :
    T.Carries T.literal (literal e spacing excluded) (literal (T.char e) spacing excluded) :=
  (carries_inOptionalQuotes (carries_literalContent he spacing hx)).bind fun _ =>
    carries_pure_of rfl

theorem carries_identifier {first later : Char → Bool} (hf : T.Respects first first)
    (hl : T.Respects later later) :
    T.Carries T.identifier (identifier ⟨e, first, later⟩)
      (identifier ⟨T.char e, first, later⟩) := by
  refine (carries_inOptionalQuotes fun quote => ?_).bind fun found => carries_pure_of rfl
  have apart := Respelling.not_isEscape_excludedIn quote
  have laterOne : T.Carries (T.tokens false) (laterChar ⟨e, first, later⟩ (excludedIn quote))
      (laterChar ⟨T.char e, first, later⟩ (excludedIn quote)) :=
    (carries_charBelow he (hl.without apart)).firstOf_pair
      ((carries_escapedChar he).bind fun escaped =>
        carries_pure_of (by simp [Respelling.tokens]))
  refine .attempt ((carries_satisfy (hf.without apart)).bind fun head =>
    laterOne.many.bind fun tail =>
    carries_pure_of ?_)
  simp [T.tokens_mergeStrings, T.tokens_flatten, Respelling.tokens]

theorem carries_keywordTail (what what' : Expectation) {letters : Text}
    (h : ∀ l ∈ letters, T.Respects (sameLetter · l) (sameLetter · l)) :
    T.Carries (T.tokens false) (keywordTail e what letters)
      (keywordTail (T.char e) what' letters) := by
  induction letters with
  | nil => exact carries_pure_of rfl
  | cons letter letters ih =>
    obtain ⟨first, others⟩ := List.forall_mem_cons.mp h
    exact (carries_charBelow he first).bind fun _ => (ih others).bind fun _ =>
      carries_pure_of (by simp)

theorem carries_keyword {name : Text}
    (h : ∀ l ∈ name, T.Respects (sameLetter · l) (sameLetter · l)) :
    T.Carries T.keyword (keyword e name) (keyword (T.char e) name) := by
  refine .attempt ?_
  cases name with
  | nil => exact carries_pure_of rfl
  | cons letter letters =>
    obtain ⟨first, others⟩ := List.forall_mem_cons.mp h
    refine (carries_satisfy first).bind fun head =>
      (carries_keywordTail he _ _ others).bind fun tail => carries_pure_of ?_
    simp [Respelling.keyword, T.tokens_mergeStrings, Respelling.tokens]

/-! ## Declarations, owners and pairs -/

theorem carries_keywordEnd : T.Carries id (keywordEnd e) (keywordEnd (T.char e)) := by
  refine carries_peek_bind fun s => ?_
  cases s with
  | nil => exact carries_pure ()
  | cons c s =>
    rcases Respelling.text_cons (T := T) c s with spelled | ⟨rfl, spelled⟩
    · have escape := (Respelling.respects_escape (T := T) he).same c
      have lineEnd := (respects_not_isLineEnd (T := T)).same c
      have blank := (respects_isInlineBlank (T := T)).same c
      rw [Bool.not_inj_iff] at lineEnd
      rw [spelled]
      simp only [List.head?_cons]
      rw [escape, lineEnd, blank]
      split
      · exact carries_pure ()
      · exact carries_fail _ _
    · rw [spelled]
      exact carries_pure ()

theorem carries_heading {name : Text}
    (h : ∀ l ∈ name, T.Respects (sameLetter · l) (sameLetter · l)) :
    T.Carries T.heading (heading e name) (heading (T.char e) name) := by
  refine carries_blankRun.bind fun lead => (carries_keyword he h).bind fun found =>
    (carries_keywordEnd he).bind fun _ => carries_blankRun.bind fun gap => ?_
  refine (carries_continuation he).bind_optional (carries_pure_of rfl) fun break_ => ?_
  exact carries_interludes.bind fun below =>
    carries_pure_of (by simp [Respelling.heading, Respelling.trivia])

theorem carries_framed {f : α → β} {p : Parser α} {p' : Parser β} (h : T.Carries f p p') :
    T.Carries (T.framed f) (framed e p) (framed (T.char e) p') :=
  carries_blankRun.bind fun before => h.bind fun content => carries_blankRun.bind fun gap =>
    (carries_optionalContinuation he).bind fun break_ => carries_optionalNewLine.bind fun ending =>
      carries_trailingComments.bind fun comments =>
        carries_pure_of (by simp [Respelling.framed])

theorem carries_argName : T.Carries T.identifier (argName e) (argName (T.char e)) :=
  carries_identifier he (respects (by decide) (by decide) (by decide))
    (respects (by decide) (by decide) (by decide))

theorem carries_argBody : T.Carries (Prod.map T.identifier (Option.map T.literal)) (argBody e)
    (argBody (T.char e)) := by
  refine (carries_argName he).bind fun name => ?_
  refine (carries_mark rfl).bind_optional (carries_pure_of rfl)
    fun _ => ?_
  refine (carries_literal he .ends (by simp)).optional.bind fun value => carries_pure_of ?_
  cases value <;> rfl

theorem carries_arg : T.Carries T.arg (arg e) (arg (T.char e)) := by
  have name : ∀ l ∈ ['A', 'R', 'G'], T.Respects (sameLetter · l) (sameLetter · l) := by
    simp only [List.forall_mem_cons, List.not_mem_nil, false_implies, implies_true, and_true]
    exact ⟨respects (by decide) (by decide) (by decide),
      respects (by decide) (by decide) (by decide),
      respects (by decide) (by decide) (by decide)⟩
  refine (carries_heading he name).bind fun heading => (carries_framed he (carries_argBody he)).bind
    fun body => carries_pure_of ?_
  simp [Respelling.arg, Respelling.heading, Respelling.framed]

theorem carries_ownerPart : T.Carries T.literal (ownerPart e) (ownerPart (T.char e)) :=
  carries_literal he .ends (Respelling.not_isEscape_of_isMark rfl)

theorem carries_ownerGroup :
    T.Carries (Prod.map (List.map T.continuation) (Prod.map (List.map T.continuation) T.literal))
      (ownerGroup e) (ownerGroup (T.char e)) :=
  (carries_continuations he).bind fun _ =>
    (carries_mark rfl).bind fun _ =>
      (carries_continuations he).bind fun _ => (carries_ownerPart he).bind fun _ =>
        carries_pure_of rfl

theorem carries_owner : T.Carries T.owner (owner e) (owner (T.char e)) :=
  (carries_ownerPart he).bind fun _ =>
    (carries_ownerGroup he).bind_optional (carries_pure_of rfl) fun _ => carries_pure_of rfl

end

theorem carries_separator : T.Carries T.separator separator separator := by
  have mark {c : Char} {s : Separator} (plain : Respelling.isMark [c] = true)
      (same : T.separator s = s) :
      T.Carries T.separator (do eat [c]; return s) (do eat [c]; return s) :=
    (carries_mark plain).bind fun _ => carries_pure_of same
  refine ((mark rfl rfl).firstOf_pair (mark rfl rfl)).bind_optional ?_ fun found =>
    carries_pure found
  refine carries_blanks.bind fun gap => ?_
  cases gap with
  | nil => exact carries_fail _ _
  | cons c gap => exact carries_pure_of rfl

theorem carries_keyValue {K V : ValueKind} (e : Char) (isFlag : Bool)
    {key key' : Parser K.Carrier} {value value' : Parser V.Carrier}
    (hk : T.Carries (T.value K) key key') (hv : T.Carries (T.value V) value value') :
    T.Carries T.pair (keyValue e isFlag key value) (keyValue (T.char e) isFlag key' value') := by
  have pair : T.Carries T.pair
      (do
        let keyToken ← key
        let assigned ← optional do
          let between ← separator
          let found ← value
          return (between, found)
        return ({ isFlag, keyToken, assigned, escape := e } : KeyValue K V))
      (do
        let keyToken ← key'
        let assigned ← optional do
          let between ← separator
          let found ← value'
          return (between, found)
        return ({ isFlag, keyToken, assigned, escape := T.char e } : KeyValue K V)) := by
    refine hk.bind fun keyToken => ?_
    have assigned : T.Carries (Prod.map T.separator (T.value V))
        (do
          let between ← separator
          let found ← value
          return (between, found))
        (do
          let between ← separator
          let found ← value'
          return (between, found)) :=
      carries_separator.bind fun _ => hv.bind fun _ => carries_pure_of rfl
    exact assigned.optional.bind fun assigned => carries_pure_of rfl
  unfold keyValue
  cases isFlag with
  | false => exact pair
  | true => exact (carries_mark rfl).bind fun _ => pair

theorem carries_startPeriod {e : Char} (he : IsEscape e) :
    T.Carries T.pair
      (keyValue (K := .keyword) (V := .literal) e true (keyword e StartPeriod.keyName)
        (literal e .ends []))
      (keyValue (K := .keyword) (V := .literal) (T.char e) true
        (keyword (T.char e) StartPeriod.keyName) (literal (T.char e) .ends [])) := by
  have name : StartPeriod.keyName.all (fun l => sameLetter '\\' l == sameLetter '`' l &&
      !sameLetter '\n' l && !sameLetter '\r' l) = true := by decide +kernel
  refine carries_keyValue e true (carries_keyword he fun l hl => ?_)
    (carries_literal he .ends (by simp))
  have letter := List.all_eq_true.mp name l hl
  simp only [Bool.and_eq_true, beq_iff_eq, Bool.not_eq_true'] at letter
  exact respects letter.1.1 letter.1.2 letter.2

end Grammar

/-! ## Whole texts -/

/-- Two readings that end alike: with values that are related, or with failures to match the grammar
at the same line and column. -/
inductive Alike {α β : Type} (R : α → β → Prop) : Except Error α → Except Error β → Prop
  | ok {a : α} {b : β} : R a b → Alike R (.ok a) (.ok b)
  | error {f g : Failure} :
      g.position = f.position → Alike R (.error (.parse f)) (.error (.parse g))

theorem Alike.mono {α β : Type} {R S : α → β → Prop} (h : ∀ a b, R a b → S a b)
    {x : Except Error α} {y : Except Error β} (hR : Alike R x y) : Alike S x y := by
  cases hR with
  | ok related => exact .ok (h _ _ related)
  | error same => exact .error same

/-- The values that are related are those of the readings. -/
theorem Alike.attach {α β : Type} {R : α → β → Prop} {x : Except Error α} {y : Except Error β}
    (h : Alike R x y) : Alike (fun a b => R a b ∧ x = .ok a ∧ y = .ok b) x y := by
  cases h with
  | ok related => exact .ok ⟨related, rfl, rfl⟩
  | error same => exact .error same

theorem Alike.exists_ok {α β : Type} {R : α → β → Prop} {x : Except Error α} {y : Except Error β}
    {a : α} (h : Alike R x y) (read : x = .ok a) : ∃ b, y = .ok b ∧ R a b := by
  cases h with
  | ok related =>
    cases read
    exact ⟨_, rfl, related⟩
  | error same => cases read

namespace Respelling

variable {T : Respelling} {e : Char} {s : Text}

theorem Carries.alike {α β : Type} {f : α → β} {p : Parser α} {p' : Parser β} (h : T.Carries f p p')
    (hs : T.Admits s) : Alike (fun a b => b = f a) (readAll p s) (readAll p' (T.text s)) := by
  have out := h.complete hs
  unfold readAll readAs
  generalize Parser.complete p s = x, Parser.complete p' (T.text s) = y at out
  cases out with
  | ok a => exact .ok rfl
  | error same => exact .error same

theorem alike_arg (he : IsEscape e) (hs : T.Admits s) :
    Alike (fun a a' => a' = T.arg a) (Arg.parse e s) (Arg.parse (T.char e) (T.text s)) :=
  (Grammar.carries_arg he).alike hs

theorem alike_owner (he : IsEscape e) (hs : T.Admits s) :
    Alike (fun o o' => o' = T.owner o) (Owner.parse e s) (Owner.parse (T.char e) (T.text s)) :=
  (Grammar.carries_owner he).alike hs

theorem alike_startPeriod (he : IsEscape e) (hs : T.Admits s) :
    Alike (fun p p' => p' = T.pair p) (StartPeriod.parse e s)
      (StartPeriod.parse (T.char e) (T.text s)) :=
  (Grammar.carries_startPeriod he).alike hs

end Respelling

end DockerfileSyntax
