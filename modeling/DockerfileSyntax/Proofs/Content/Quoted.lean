import DockerfileSyntax.Proofs.Content.Beginnings
import DockerfileSyntax.Proofs.Content.Evaluation
import DockerfileSyntax.Proofs.Literals

/-!
# Content within quotes

Whatever content stands outside quotes may stand within them: there, nothing is excluded but the
quote itself, which is excluded outside as well. White space that separates outside is content
within, and so its tokens become strings and join their neighbours.

1. `run_unitPart_of_widens`: a part of content is a part under all rules that exclude less.
2. `word_joinBlanks`: with its white space as strings, content is a word within quotes.
3. `Literal.complete_quoted`: a literal reads the same within quotes.
-/

namespace DockerfileSyntax

open Grammar DockerfileSyntax.Parser

/-! ## White space as strings -/

/-- White space as a string; other tokens stay. -/
def Token.blankToString : Token → Token
  | .whitespace text => .string text
  | t => t

/-- White space as strings, joined with the strings beside it. -/
def joinBlanks (ts : List Token) : List Token := mergeStrings (ts.map Token.blankToString)

section Joining

variable {f : Token → Token}

/-- Joining goes from the end to the beginning. -/
theorem mergeStrings_cons_congr {ts us : List Token} (h : mergeStrings ts = mergeStrings us)
    (t : Token) : mergeStrings (t :: ts) = mergeStrings (t :: us) := by
  rcases t with ⟨kind, text⟩ | ⟨kind, children⟩
  · cases kind <;> simp only [mergeStrings, h]
  · simp only [mergeStrings, h]

theorem mergeStrings_map_prependText (isString : ∀ text, f (.string text) = .string text)
    (text : Text) (ts : List Token) :
    mergeStrings ((prependText text ts).map f) = prependText text (mergeStrings (ts.map f)) := by
  conv_lhs => unfold prependText
  split
  · next more others =>
    rw [List.map_cons, isString, mergeStrings_string, List.map_cons, isString, mergeStrings_string]
    exact (prependText_prependText text more _).symm
  · split
    · next empty =>
      rw [List.isEmpty_iff.mp empty]
      exact (prependText_nil _).symm
    · rw [List.map_cons, isString, mergeStrings_string]

/-- What leaves strings as they are may be done before or after they are joined. -/
theorem mergeStrings_map_mergeStrings (isString : ∀ text, f (.string text) = .string text)
    (ts : List Token) : mergeStrings ((mergeStrings ts).map f) = mergeStrings (ts.map f) := by
  induction ts with
  | nil => rfl
  | cons t ts ih =>
    have other (hm : mergeStrings (t :: ts) = t :: mergeStrings ts) :
        mergeStrings ((mergeStrings (t :: ts)).map f) = mergeStrings ((t :: ts).map f) := by
      rw [hm, List.map_cons, List.map_cons]
      exact mergeStrings_cons_congr ih (f t)
    rcases t with ⟨kind, text⟩ | ⟨kind, children⟩
    · cases kind with
      | string =>
        rw [mergeStrings_string, mergeStrings_map_prependText isString, ih, List.map_cons, isString,
          mergeStrings_string]
      | _ => exact other rfl
    · exact other rfl

theorem joinBlanks_mergeStrings (ts : List Token) : joinBlanks (mergeStrings ts) = joinBlanks ts :=
  mergeStrings_map_mergeStrings (fun _ => rfl) ts

@[simp] theorem renderAll_joinBlanks (ts : List Token) :
    Token.renderAll (joinBlanks ts) = Token.renderAll ts := by
  rw [joinBlanks, renderAll_mergeStrings]
  induction ts with
  | nil => rfl
  | cons t ts ih =>
    rw [List.map_cons, Token.renderAll, Token.renderAll, ih]
    rcases t with ⟨kind, text⟩ | ⟨kind, children⟩
    · cases kind <;> rfl
    · rfl

@[simp] theorem valueAll_joinBlanks (ts : List Token) :
    Token.valueAll (joinBlanks ts) = Token.valueAll ts := by
  rw [joinBlanks, valueAll_mergeStrings]
  induction ts with
  | nil => rfl
  | cons t ts ih =>
    rw [List.map_cons, Token.valueAll, Token.valueAll, ih]
    rcases t with ⟨kind, text⟩ | ⟨kind, children⟩
    · cases kind <;> rfl
    · rfl

theorem joinBlanks_node (kind : NodeKind) (children ts : List Token) :
    joinBlanks (.node kind children :: ts) = .node kind children :: joinBlanks ts := rfl

theorem joinBlanks_blankTokens (gap : Text) (ts : List Token) :
    joinBlanks (blankTokens gap ++ ts) = prependText gap (joinBlanks ts) := by
  cases gap with
  | nil => exact (prependText_nil _).symm
  | cons c gap => rfl

theorem joinBlanks_breaks (breaks : List Continuation) (ts : List Token) :
    joinBlanks (breaks.map Continuation.toToken ++ ts) =
      breaks.map Continuation.toToken ++ joinBlanks ts := by
  induction breaks with
  | nil => rfl
  | cons k breaks ih =>
    rw [List.map_cons, List.cons_append, Continuation.toToken, joinBlanks_node, ih]
    rfl

end Joining

/-! ## Parts under wider rules -/

section Parts

variable {word : Parser (List Token)} [Regular word] {rules rules' : ContentRules}

/-- A part of content is a part where less ends content. -/
theorem run_unitPart_of_widens (wider : rules'.Widens rules) {s r : Text} {part : Token}
    (h : run (unitPart word rules) s = some (part, r)) :
    run (unitPart word rules') s = some (part, r) := by
  refine run_unitPart_eq_some.mpr ((run_unitPart_eq_some.mp h).imp_right fun h => ?_)
  obtain ⟨noReference, read⟩ := h
  refine ⟨noReference, run_characterPart_eq_some.mpr ?_⟩
  rcases run_characterPart_eq_some.mp read with ⟨c, plain, rfl, rfl⟩ | ⟨-, t, escaped, rfl⟩
  · have notReference := (startsPlain_cons.mp plain).2.2.2.2
    exact .inl ⟨c, (wider.startsPlain_iff plain).mpr notReference, rfl, rfl⟩
  · rw [← wider.escape] at escaped
    obtain ⟨c, -, -, rfl, rfl⟩ := run_escapedChar_eq_some.mp escaped
    refine .inr ⟨?_, _, escaped, rfl⟩
    rw [← Bool.not_eq_true, startsPlain_cons]
    exact fun plain => plain.1 rfl

theorem quoted_widens_bare (e : Char) (quote : Quote) (spacing : Spacing) (excluded : List Char) :
    (ContentRules.quoted e quote).Widens (.bare e spacing excluded) := by
  refine ⟨rfl, fun _ => rfl, fun c mem => ?_⟩
  rw [List.mem_singleton.mp mem]
  exact List.mem_append_right excluded (quote_mem_all quote)

/-- White space may stand before the end of a word where it is content. -/
theorem Suffix.prependText_blanks {ts : List Token} (he : IsEscape rules.escape)
    (begin : WideMarksBegin rules) (h : Suffix rules ts) {gap : Text}
    (blank : ∀ c ∈ gap, isInlineBlank c = true) : Suffix rules (prependText gap ts) := by
  induction gap with
  | nil => rwa [prependText_nil]
  | cons c gap ih =>
    obtain ⟨first, others⟩ := List.forall_mem_cons.mp blank
    rw [← List.singleton_append, ← prependText_prependText]
    refine (ih others).prepend (m := []) (List.cons_ne_nil c []) (.inl ⟨c, rfl, ?_⟩)
    exact startsPlain_blank he begin.1 begin.2 first _

end Parts

/-! ## Content under wider rules -/

section Content

variable {word : Parser (List Token)} [Regular word] {rules rules' : ContentRules} {s r : Text}

/-- No part of content is white space. -/
theorem blankToString_of_unitPart {part : Token}
    (h : run (unitPart word rules) s = some (part, r)) : part.blankToString = part := by
  rcases run_unitPart_eq_some.mp h with ⟨found, -, rfl⟩ | ⟨-, read⟩
  · rfl
  · rcases run_characterPart_eq_some.mp read with ⟨c, -, -, rfl⟩ | ⟨-, t, -, rfl⟩ <;> rfl

theorem run_laterUnit_eq_some {item : List Token} :
    run (laterUnit word rules) s = some (item, r) ↔
      ∃ gap m parts, run (gapBefore rules) s = some (gap, m) ∧
        run (unit word rules) m = some (parts, r) ∧ item = blankTokens gap ++ parts := by
  rw [laterUnit_eq]
  simp only [run_bind_eq_some, run_pure_eq_some]
  constructor
  · rintro ⟨gap, m, hg, parts, m', hu, rfl, rfl⟩
    exact ⟨gap, m, parts, hg, hu, rfl⟩
  · rintro ⟨gap, m, parts, hg, hu, rfl⟩
    exact ⟨gap, m, hg, parts, r, hu, rfl, rfl⟩

theorem blank_of_run_gapBefore {gap : Text} (h : run (gapBefore rules) s = some (gap, r)) :
    ∀ c ∈ gap, isInlineBlank c = true := by
  unfold gapBefore at h
  split at h
  · exact (run_takeWhile_eq_some h).1
  · obtain ⟨rfl, -⟩ := run_pure_eq_some.mp h
    exact List.forall_mem_nil _

/-- Where white space is content and less ends content, one more part before the end of a word gives
the end of a word. -/
theorem suffix_joinBlanks_of_part (wider : rules'.Widens rules)
    (hw : ReadsWords rules'.escape word) {part : Token} {ts : List Token}
    (h : run (unitPart word rules) s = some (part, Token.renderAll ts ++ r))
    (suffix : Suffix rules' (joinBlanks ts)) :
    ∃ t others, joinBlanks (part :: ts) = t :: others ∧ t.isBreak = false ∧
      Suffix rules' (t :: others) := by
  have read := run_unitPart_of_widens wider h
  rw [← renderAll_joinBlanks] at read
  have joined : joinBlanks (part :: ts) =
      mergeStrings (part :: ts.map Token.blankToString) := by
    rw [joinBlanks, List.map_cons, blankToString_of_unitPart h]
  rw [joined]
  exact suffix_of_unitPart hw read suffix

/-- Later units are the end of a word where white space is content and less ends content. -/
theorem suffix_joinBlanks_of_steps (he : IsEscape rules'.escape) (wider : rules'.Widens rules)
    (begin : WideMarksBegin rules') (lossless : Lossless word Token.renderAll)
    (hw : ReadsWords rules'.escape word) {items : List (List Token)}
    (steps : Steps (laterUnit word rules) s items r) :
    Suffix rules' (joinBlanks items.flatten) := by
  induction steps with
  | nil => exact Suffix.nil
  | @cons s m r item items first _ rest ih =>
    have behind : m = Token.renderAll items.flatten ++ r := by
      rw [renderAll_flatten]
      exact (lossless_laterUnit lossless rules).steps rest
    obtain ⟨gap, t, parts, hg, hu, rfl⟩ := run_laterUnit_eq_some.mp first
    obtain ⟨breaks, t', part, all, -, -, hp, rfl⟩ := run_unit_eq_some.mp hu
    rw [behind] at hp
    obtain ⟨u, others, eq, -, suffix⟩ := suffix_joinBlanks_of_part wider hw hp ih
    rw [← wider.escape] at all
    rw [List.flatten_cons, List.append_assoc, List.append_assoc, joinBlanks_blankTokens,
      joinBlanks_breaks, List.singleton_append, eq]
    exact (suffix.breaks (List.cons_ne_nil u others) all).prependText_blanks he begin
      (blank_of_run_gapBefore hg)

/-- With its white space as strings, content is a word where white space is content and less ends
content. -/
theorem word_joinBlanks (he : IsEscape rules'.escape) (wider : rules'.Widens rules)
    (begin : WideMarksBegin rules') {ts : List Token}
    (h : run (content rules) s = some (ts, r)) : Word rules' (joinBlanks ts) := by
  have lossless := lossless_content (.word rules.escape)
  have hw : ReadsWords rules'.escape (content (.word rules.escape)) := by
    rw [wider.escape]
    exact readsWords_content rules.escape
  rw [content_eq] at h
  obtain ⟨item, m, hf, h⟩ := run_bind_eq_some.mp h
  obtain ⟨items, m', hi, h⟩ := run_bind_eq_some.mp h
  obtain ⟨rfl, rfl⟩ := run_pure_eq_some.mp h
  obtain ⟨steps, -⟩ := run_many_eq_some.mp hi
  obtain ⟨part, rfl, hp⟩ := part_of_firstUnit hf
  have behind : m = Token.renderAll items.flatten ++ r := by
    rw [renderAll_flatten]
    exact (lossless_laterUnit lossless rules).steps steps
  rw [behind] at hp
  obtain ⟨u, others, eq, notBreak, suffix⟩ := suffix_joinBlanks_of_part wider hw hp
    (suffix_joinBlanks_of_steps he wider begin lossless hw steps)
  rw [joinBlanks_mergeStrings, List.singleton_append, eq]
  -- a word is the end of one that does not begin with a line continuation
  refine suffix.word fun v hv => ?_
  cases hv
  exact notBreak

/-- Content in which white space does not separate holds none. -/
theorem joinBlanks_of_run_content (hs : rules.spacing ≠ .separates) {ts : List Token}
    (h : run (content rules) s = some (ts, r)) : joinBlanks ts = ts := by
  have isWord := (run_content_sound hs h).1
  have same : ts.map Token.blankToString = ts := by
    refine (List.map_congr_left fun t mem => ?_).trans (List.map_id ts)
    rcases (isWord.parts t mem).shape with ⟨text, rfl, -⟩ | ⟨k, rfl, -⟩ | ⟨braced, children, rfl⟩
    all_goals rfl
  rw [joinBlanks, same]
  obtain ⟨item, m, -, h⟩ := run_bind_eq_some.mp (content_eq rules ▸ h)
  obtain ⟨items, m', -, h⟩ := run_bind_eq_some.mp h
  obtain ⟨rfl, -⟩ := run_pure_eq_some.mp h
  exact mergeStrings_mergeStrings (item ++ items.flatten)

end Content

/-! ## Literals -/

/-- A literal without quotes reads within quotes as well: the parts are the same, apart from white
space that separates, which becomes text. -/
theorem Literal.complete_quoted {e : Char} (he : IsEscape e) {spacing : Spacing}
    {excluded : List Char} {v : Text} {l : Literal}
    (accepted : complete (literal e spacing excluded) v = .ok l) (bare : l.quote = none)
    (quote : Quote) :
    complete (literal e spacing excluded) (quote.char :: (v ++ [quote.char])) =
      .ok ⟨some quote, joinBlanks l.children⟩ ∧
    (spacing ≠ .separates → joinBlanks l.children = l.children) := by
  obtain ⟨⟨own, children⟩, m, hq, h⟩ := run_bind_eq_some.mp (complete_eq_ok.mp accepted)
  obtain ⟨rfl, rfl⟩ := run_pure_eq_some.mp h
  obtain rfl : own = none := bare
  obtain ⟨t, read, rfl⟩ := run_inOptionalQuotes_sound hq
  have text : v = Token.renderAll (joinBlanks children) := by
    have whole := (lossless_content _).append_eq read
    simpa [Quote.mark] using whole
  have isWord : Word (.quoted e quote) (joinBlanks children) :=
    word_joinBlanks he (quoted_widens_bare e quote spacing excluded)
      (wideMarksBegin_quoted e quote) read
  refine ⟨complete_eq_ok.mpr ?_, fun hs => joinBlanks_of_run_content hs read⟩
  have inside := run_literalContent_quoted he spacing excluded isWord []
  rw [← text] at inside
  have within := run_inOptionalQuotes_quoted inside
  exact run_bind_eq_some.mpr ⟨_, [], within, rfl⟩

end DockerfileSyntax
