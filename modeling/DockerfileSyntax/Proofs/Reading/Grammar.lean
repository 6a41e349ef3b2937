import DockerfileSyntax.Arg
import DockerfileSyntax.Owner
import DockerfileSyntax.Production
import DockerfileSyntax.Proofs.Reading.Agreement
import DockerfileSyntax.StartPeriod

/-!
# The grammars are regular

Every parser of this library is regular, so that each reads the same from every cursor. For content
this needs the equation `content_eq` first: a word is content again, with no guard on what is left.
-/

namespace DockerfileSyntax

namespace Grammar

open DockerfileSyntax.Parser

variable {α : Type}

/-! ## Trivia -/

instance regular_newLine : Regular newLine := by
  unfold newLine
  infer_instance

instance regular_blanks : Regular blanks := by
  unfold blanks
  infer_instance

instance regular_optionalNewLine : Regular optionalNewLine := by
  unfold optionalNewLine
  infer_instance

instance regular_whitespace : Regular whitespace := by
  unfold whitespace
  infer_instance

instance regular_continuation (escape : Char) : Regular (continuation escape) := by
  unfold continuation
  infer_instance

instance regular_continuations (escape : Char) : Regular (continuations escape) := by
  unfold continuations
  infer_instance

instance regular_escapedChar (escape : Char) : Regular (escapedChar escape) := by
  unfold escapedChar
  infer_instance

instance regular_charBelow (escape : Char) (what : Expectation) (holds : Char → Bool) :
    Regular (charBelow escape what holds) := by
  unfold charBelow
  infer_instance

instance regular_comment : Regular comment := by
  unfold comment
  infer_instance

instance regular_commentLine : Regular commentLine := by
  unfold commentLine
  infer_instance

instance regular_trailingComments : Regular trailingComments := by
  unfold trailingComments
  infer_instance

instance regular_blankLine : Regular blankLine := by
  unfold blankLine
  infer_instance

/-! ## References and content -/

instance regular_variableName : Regular variableName := by
  unfold variableName
  infer_instance

instance regular_bareReference : Regular bareReference := by
  unfold bareReference
  infer_instance

instance regular_modification (word : Parser (List Token)) [Regular word] :
    Regular (modification word) := by
  unfold modification
  infer_instance

instance regular_bracedReference (word : Parser (List Token)) [Regular word] :
    Regular (bracedReference word) := by
  unfold bracedReference
  infer_instance

instance regular_referenceWith (word : Parser (List Token)) [Regular word] :
    Regular (referenceWith word) := by
  unfold referenceWith
  infer_instance

theorem literalChar_apply (rules : ContentRules) (c : Cursor) :
    literalChar rules c =
      if startsPlain rules c.rest then satisfy .literalChar (fun _ => true) c
      else fail .literalChar c := rfl

theorem run_literalChar (rules : ContentRules) (s : Text) :
    run (literalChar rules) s =
      if startsPlain rules s then run (satisfy .literalChar fun _ => true) s else none := by
  rw [run, literalChar_apply]
  by_cases h : startsPlain rules s = true
  · rw [if_pos h, if_pos (show startsPlain rules (Cursor.start s).rest = true from h)]
    rfl
  · rw [if_neg h, if_neg (show ¬ startsPlain rules (Cursor.start s).rest = true from h)]
    rfl

instance regular_literalChar (rules : ContentRules) : Regular (literalChar rules) where
  of_ok {c d a} h := by
    rw [literalChar_apply] at h
    rw [run_literalChar]
    by_cases hp : startsPlain rules c.rest = true
    · rw [if_pos hp] at h ⊢
      exact Regular.of_ok h
    · rw [if_neg hp] at h
      cases h
  of_error {c d f} h := by
    rw [literalChar_apply] at h
    rw [run_literalChar]
    by_cases hp : startsPlain rules c.rest = true
    · rw [if_pos hp] at h ⊢
      exact Regular.of_error h
    · rw [if_neg hp] at h ⊢
      exact ⟨rfl, ((regular_fail _).of_error h).2⟩

/-- A character of content, by itself or behind the escape character. -/
def characterPart (rules : ContentRules) : Parser Token := do
  match ← optional (literalChar rules) with
  | some found => return .string [found]
  | none =>
    let escaped ← escapedChar rules.escape
    return .string escaped

/-- What a unit of content holds: a reference or a character. -/
def unitPart (word : Parser (List Token)) (rules : ContentRules) : Parser Token := do
  match ← optional (referenceWith word) with
  | some reference => return reference.toToken
  | none => characterPart rules

theorem unit_eq (word : Parser (List Token)) (rules : ContentRules) :
    unit word rules = attempt do
      let breaks ← continuations rules.escape
      let part ← unitPart word rules
      return breaks.map Continuation.toToken ++ [part] := by
  unfold unit unitPart characterPart
  congr 1
  refine bind_congr fun breaks => ?_
  rw [bind_assoc]
  refine bind_congr fun o => ?_
  cases o with
  | some reference => rfl
  | none =>
    simp only [bind_assoc]
    refine bind_congr fun o => ?_
    cases o <;> simp only [bind_assoc, pure_bind]

instance regular_characterPart (rules : ContentRules) : Regular (characterPart rules) := by
  unfold characterPart
  infer_instance

instance regular_unitPart (word : Parser (List Token)) [Regular word] (rules : ContentRules) :
    Regular (unitPart word rules) := by
  unfold unitPart
  infer_instance

instance regular_unit (word : Parser (List Token)) [Regular word] (rules : ContentRules) :
    Regular (unit word rules) := by
  rw [unit_eq]
  infer_instance

instance regular_firstUnit (word : Parser (List Token)) [Regular word] (rules : ContentRules) :
    Regular (firstUnit word rules) := by
  unfold firstUnit
  infer_instance

/-- The white space that may stand before a later unit of content. -/
def gapBefore (rules : ContentRules) : Parser Text :=
  if rules.spacing = .separates then blanks else pure []

instance regular_gapBefore (rules : ContentRules) : Regular (gapBefore rules) := by
  unfold gapBefore
  infer_instance

theorem laterUnit_eq (word : Parser (List Token)) (rules : ContentRules) :
    laterUnit word rules = do
      let gap ← gapBefore rules
      let parts ← unit word rules
      return blankTokens gap ++ parts := by
  unfold laterUnit gapBefore
  split <;> rfl

instance regular_laterUnit (word : Parser (List Token)) [Regular word] (rules : ContentRules) :
    Regular (laterUnit word rules) := by
  rw [laterUnit_eq]
  infer_instance

instance regular_contentWith (word : Parser (List Token)) [Regular word] (rules : ContentRules) :
    Regular (contentWith word rules) := by
  unfold contentWith
  infer_instance

/-! ## Words within content -/

theorem agreeUpTo_modification {n : Nat} {v w : Parser (List Token)} (h : AgreeUpTo n v w) :
    AgreeUpTo n (modification v) (modification w) := by
  unfold modification
  refine (AgreeUpTo.refl _ n).bind fun o => ?_
  cases o with
  | none => exact AgreeUpTo.refl _ n
  | some modifier => exact h.optional.bind fun children => AgreeUpTo.refl _ n

/-- A reference looks at its word only behind its opening brace. -/
theorem agreeUpTo_bracedReference {n : Nat} {v w : Parser (List Token)}
    (h : ∀ m < n, AgreeUpTo m v w) : AgreeUpTo n (bracedReference v) (bracedReference w) := by
  refine AgreeUpTo.attempt (AgreeUpTo.bind_of_lt ?_ fun m hm u => ?_)
  · intro s r u hr
    rw [run_eat_eq_some.mp hr, List.length_append]
    exact Nat.lt_add_of_pos_left (by decide)
  · exact (AgreeUpTo.refl _ m).bind fun name =>
      (agreeUpTo_modification (h m hm)).bind fun modified => AgreeUpTo.refl _ m

theorem agreeUpTo_referenceWith {n : Nat} {v w : Parser (List Token)}
    (h : ∀ m < n, AgreeUpTo m v w) : AgreeUpTo n (referenceWith v) (referenceWith w) :=
  (AgreeUpTo.refl _ n).firstOf_pair (agreeUpTo_bracedReference h)

theorem agreeUpTo_unit {n : Nat} {v w : Parser (List Token)} (h : ∀ m < n, AgreeUpTo m v w)
    (rules : ContentRules) : AgreeUpTo n (unit v rules) (unit w rules) := by
  refine AgreeUpTo.attempt ((AgreeUpTo.refl _ n).bind fun breaks => ?_)
  refine (agreeUpTo_referenceWith h).optional.bind fun o => ?_
  cases o with
  | some reference => exact AgreeUpTo.refl _ n
  | none =>
    refine (AgreeUpTo.refl _ n).bind fun o => ?_
    cases o <;> exact AgreeUpTo.refl _ n

/-- Content uses the grammar of words only where less is left than at its beginning. -/
theorem agreeUpTo_contentWith {n : Nat} {v w : Parser (List Token)}
    (h : ∀ m < n, AgreeUpTo m v w) (rules : ContentRules) :
    AgreeUpTo n (contentWith v rules) (contentWith w rules) := by
  have hunit := agreeUpTo_unit h rules
  have hfirst : AgreeUpTo n (firstUnit v rules) (firstUnit w rules) := by
    refine AgreeUpTo.attempt ((AgreeUpTo.refl _ n).bind fun b => ?_)
    cases b with
    | false => exact hunit
    | true => exact AgreeUpTo.refl (fail .literal) n
  have hlater : AgreeUpTo n (laterUnit v rules) (laterUnit w rules) := by
    rw [laterUnit_eq, laterUnit_eq]
    exact (AgreeUpTo.refl _ n).bind fun gap => hunit.bind fun parts => AgreeUpTo.refl _ n
  exact hfirst.bind fun first => hlater.many.bind fun others => AgreeUpTo.refl _ n

theorem agreeUpTo_content (rules : ContentRules) (n : Nat) :
    AgreeUpTo n (content rules) (contentWith (content (.word rules.escape)) rules) := by
  -- the guard in the definition holds for every word, since a word begins behind a brace
  induction n using Nat.strongRecOn generalizing rules with
  | ind n ih =>
    intro c hc
    rw [content]
    refine agreeUpTo_contentWith (fun m hm d hd => ?_) rules c (Nat.le_refl _)
    have less : d.left < c.left := Nat.lt_of_le_of_lt hd hm
    simp only [less, if_true, true_and]
    exact (ih m (Nat.lt_of_lt_of_le hm hc) (.word rules.escape) d hd).2

/-- Content is made of units, and a word within it is content under the rules for words. -/
theorem content_eq (rules : ContentRules) :
    content rules = contentWith (content (.word rules.escape)) rules := by
  funext c
  exact (agreeUpTo_content rules c.left c (Nat.le_refl _)).1

/-- Content in which words nest at most `n` deep. -/
def contentUpTo : Nat → ContentRules → Parser (List Token)
  | 0, _ => fail .literal
  | n + 1, rules => contentWith (contentUpTo n (.word rules.escape)) rules

theorem agreeUpTo_contentUpTo (rules : ContentRules) {m n : Nat} (h : m < n) :
    AgreeUpTo m (content rules) (contentUpTo n rules) := by
  induction n generalizing m rules with
  | zero => exact absurd h (Nat.not_lt_zero m)
  | succ n ih =>
    rw [content_eq, contentUpTo]
    exact agreeUpTo_contentWith (fun k hk => ih _ (by omega)) rules

/-- What holds of content if it holds of the parser that always fails, of content with a grammar of
words of which it holds, and of whatever looks like such a parser on texts of bounded length. -/
theorem content_induction {P : ContentRules → Parser (List Token) → Prop}
    (fails : ∀ rules, P rules (fail .literal))
    (step : ∀ rules word, P (.word rules.escape) word → P rules (contentWith word rules))
    (limit : ∀ rules p, (∀ n, ∃ q, P rules q ∧ ∀ c : Cursor, c.left ≤ n → p c = q c) → P rules p)
    (rules : ContentRules) : P rules (content rules) := by
  -- on texts of length `n`, content is what remains if words nest at most `n + 1` deep
  have bounded : ∀ n rules, P rules (contentUpTo n rules) := by
    intro n
    induction n with
    | zero => exact fails
    | succ n ih => exact fun rules => step rules _ (ih _)
  refine limit rules _ fun n => ⟨contentUpTo (n + 1) rules, bounded (n + 1) rules, ?_⟩
  intro c hc
  exact (agreeUpTo_contentUpTo rules (Nat.lt_succ_self n) c hc).1

instance regular_content (rules : ContentRules) : Regular (content rules) :=
  content_induction (P := fun _ p => Regular p) (fun _ => inferInstance)
    (fun rules word _ => regular_contentWith word rules)
    (fun _ _ h => Regular.of_forall_left h) rules

/-- What holds of every successful reading of content if it is passed on from words to the content
that they stand in. -/
theorem run_content_induction {P : ContentRules → Text → List Token → Text → Prop}
    (step : ∀ rules word, Regular word →
      (∀ s ts r, run word s = some (ts, r) → P (.word rules.escape) s ts r) →
      ∀ s ts r, run (contentWith word rules) s = some (ts, r) → P rules s ts r)
    (rules : ContentRules) {s r : Text} {ts : List Token}
    (h : run (content rules) s = some (ts, r)) : P rules s ts r := by
  refine (content_induction (P := fun rules p => Regular p ∧
    ∀ s ts r, run p s = some (ts, r) → P rules s ts r) ?_ ?_ ?_ rules).2 s ts r h
  · exact fun rules => ⟨inferInstance, fun s ts r h => nomatch h⟩
  · intro rules word ⟨regular, ih⟩
    exact ⟨inferInstance, step rules word regular ih⟩
  · intro rules p bounded
    refine ⟨Regular.of_forall_left fun n => ?_, fun s ts r hr => ?_⟩
    · obtain ⟨q, hq, agree⟩ := bounded n
      exact ⟨q, hq.1, agree⟩
    · obtain ⟨q, hq, agree⟩ := bounded s.length
      rw [run, agree (.start s) (Nat.le_refl _)] at hr
      exact hq.2 s ts r hr

instance regular_reference (escape : Char) : Regular (reference escape) := by
  unfold reference
  infer_instance

/-! ## Literals, identifiers and keywords -/

theorem regular_inOptionalQuotes_go {inner : Option Quote → Parser α}
    (h : ∀ quote, Regular (inner quote)) (quotes : List Quote) :
    Regular (inOptionalQuotes.go inner quotes) := by
  induction quotes with
  | nil =>
    unfold inOptionalQuotes.go
    infer_instance
  | cons quote quotes ih =>
    unfold inOptionalQuotes.go
    refine Regular.bind inferInstance fun o => ?_
    cases o with
    | none => exact ih
    | some found => infer_instance

instance regular_inOptionalQuotes (inner : Option Quote → Parser α)
    [h : ∀ quote, Regular (inner quote)] : Regular (inOptionalQuotes inner) :=
  regular_inOptionalQuotes_go h Quote.all

instance regular_literalContent (escape : Char) (spacing : Spacing) (excluded : List Char)
    (quote : Option Quote) : Regular (literalContent escape spacing excluded quote) := by
  cases quote <;> simp only [literalContent] <;> infer_instance

instance regular_literal (escape : Char) (spacing : Spacing) (excluded : List Char) :
    Regular (literal escape spacing excluded) := by
  unfold literal
  infer_instance

instance regular_laterChar (rules : NameRules) (excluded : List Char) :
    Regular (laterChar rules excluded) := by
  unfold laterChar
  infer_instance

instance regular_nameRun (rules : NameRules) (excluded : List Char) :
    Regular (nameRun rules excluded) := by
  unfold nameRun
  infer_instance

instance regular_identifier (rules : NameRules) : Regular (identifier rules) := by
  unfold identifier
  infer_instance

instance regular_identifierContent (rules : NameRules) (quote : Option Quote) :
    Regular (identifierContent rules quote) := by
  unfold identifierContent
  infer_instance

instance regular_identifierAggregate (rules : NameRules) :
    Regular (identifierAggregate rules) := by
  unfold identifierAggregate
  infer_instance

instance regular_keywordTail (escape : Char) (what : Expectation) (letters : Text) :
    Regular (keywordTail escape what letters) := by
  induction letters with
  | nil =>
    unfold keywordTail
    infer_instance
  | cons letter letters ih =>
    unfold keywordTail
    infer_instance

instance regular_keyword (escape : Char) (name : Text) : Regular (keyword escape name) := by
  unfold keyword
  cases name <;> infer_instance

/-! ## Instructions, owners and pairs -/

instance regular_blankRun : Regular blankRun := by
  unfold blankRun
  infer_instance

instance regular_optionalContinuation (escape : Char) :
    Regular (optionalContinuation escape) := by
  unfold optionalContinuation
  infer_instance

instance regular_keywordEnd (escape : Char) : Regular (keywordEnd escape) := by
  unfold keywordEnd
  refine Regular.bind inferInstance fun o => ?_
  cases o <;> infer_instance

instance regular_interludes : Regular interludes := by
  unfold interludes
  infer_instance

instance regular_heading (escape : Char) (name : Text) : Regular (heading escape name) := by
  unfold heading
  infer_instance

instance regular_framed (escape : Char) (arguments : Parser α) [Regular arguments] :
    Regular (framed escape arguments) := by
  unfold framed
  infer_instance

/-- What may end an instruction. -/
def ending (escape : Char) : Parser (List Trivia) := do
  let gap ← blankRun
  let break_ ← optionalContinuation escape
  let ending ← optionalNewLine
  let comments ← trailingComments
  return gap ++ break_ ++ ending ++ comments

theorem framed_eq (escape : Char) (arguments : Parser α) :
    framed escape arguments = do
      let before ← blankRun
      let content ← arguments
      let after ← ending escape
      return ⟨before, content, after⟩ := by
  simp [framed, ending]

instance regular_ending (escape : Char) : Regular (ending escape) := by
  unfold ending
  infer_instance

/-- What stands behind a name: `=` and a value, which may be missing, or nothing. -/
def assignment (escape : Char) : Parser (Option Literal) := do
  match ← optional (eat ['=']) with
  | none => return none
  | some () =>
    let value ← optional (literal escape .ends [])
    return some (value.getD .empty)

theorem argBody_eq (escape : Char) :
    argBody escape = do
      let name ← argName escape
      let value ← assignment escape
      return (name, value) := by
  simp only [argBody, assignment, bind_assoc]
  refine bind_congr fun name => bind_congr fun o => ?_
  cases o with
  | none => simp only [pure_bind]
  | some _ => simp only [bind_assoc, pure_bind]

instance regular_assignment (escape : Char) : Regular (assignment escape) := by
  unfold assignment
  infer_instance

instance regular_argName (escape : Char) : Regular (argName escape) := by
  unfold argName
  infer_instance

instance regular_argBody (escape : Char) : Regular (argBody escape) := by
  unfold argBody
  infer_instance

instance regular_arg (escape : Char) : Regular (arg escape) := by
  unfold arg
  infer_instance

instance regular_ownerPart (escape : Char) : Regular (ownerPart escape) := by
  unfold ownerPart
  infer_instance

instance regular_ownerGroup (escape : Char) : Regular (ownerGroup escape) := by
  unfold ownerGroup
  infer_instance

instance regular_owner (escape : Char) : Regular (owner escape) := by
  unfold owner
  infer_instance

instance regular_separator : Regular separator := by
  unfold separator
  infer_instance

instance regular_keyValue {K V : ValueKind} (escape : Char) (isFlag : Bool)
    (key : Parser K.Carrier) (value : Parser V.Carrier) [Regular key] [Regular value] :
    Regular (keyValue escape isFlag key value) := by
  unfold keyValue
  infer_instance

end Grammar

/-! ## Grammars as data -/

instance regular_valueProduction {kind : ValueKind} (production : ValueProduction kind) :
    Parser.Regular production.parser := by
  cases production <;> unfold ValueProduction.parser <;> infer_instance

namespace Production

open DockerfileSyntax.Parser

instance regular_triviaTokens (p : Parser (List Trivia)) [Regular p] :
    Regular (triviaTokens p) := by
  unfold triviaTokens
  infer_instance

instance regular_single {α : Type} (toToken : α → Token) (p : Parser α) [Regular p] :
    Regular (single toToken p) := by
  unfold single
  infer_instance

theorem regular_inOrder {ps : List (Parser (List Token))} (h : ∀ p ∈ ps, Regular p) :
    Regular (inOrder ps) := by
  induction ps with
  | nil =>
    unfold inOrder
    infer_instance
  | cons p ps ih =>
    have hp : Regular p := h p List.mem_cons_self
    have hps : Regular (inOrder ps) := ih fun q hq => h q (List.mem_cons_of_mem _ hq)
    unfold inOrder
    infer_instance

end Production

end DockerfileSyntax
