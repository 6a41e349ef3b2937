import DockerfileSyntax.Proofs.Failures.Recording

/-!
# The grammars have logs

Every parser of this library is built from the primitives and the combinators, so that a log lists
what it records. Content is a fixed point; on a text it is content in which words nest at most as
deep as the text is long, and a grammar may look at the text that is left.
-/

namespace DockerfileSyntax

namespace Grammar

open DockerfileSyntax.Parser

variable {α : Type}

/-! ## Trivia -/

instance recorded_newLine : Recorded newLine := by
  unfold newLine
  infer_instance

instance recorded_blanks : Recorded blanks := by
  unfold blanks
  infer_instance

instance recorded_optionalNewLine : Recorded optionalNewLine := by
  unfold optionalNewLine
  infer_instance

instance recorded_whitespace : Recorded whitespace := by
  unfold whitespace
  infer_instance

instance recorded_continuation (escape : Char) : Recorded (continuation escape) := by
  unfold continuation
  infer_instance

instance recorded_continuations (escape : Char) : Recorded (continuations escape) := by
  unfold continuations
  infer_instance

instance recorded_escapedChar (escape : Char) : Recorded (escapedChar escape) := by
  unfold escapedChar
  infer_instance

instance recorded_charBelow (escape : Char) (what : Expectation) (holds : Char → Bool) :
    Recorded (charBelow escape what holds) := by
  unfold charBelow
  infer_instance

instance recorded_comment : Recorded comment := by
  unfold comment
  infer_instance

instance recorded_commentLine : Recorded commentLine := by
  unfold commentLine
  infer_instance

instance recorded_trailingComments : Recorded trailingComments := by
  unfold trailingComments
  infer_instance

instance recorded_blankLine : Recorded blankLine := by
  unfold blankLine
  infer_instance

/-! ## References and content -/

instance recorded_variableName : Recorded variableName := by
  unfold variableName
  infer_instance

instance recorded_bareReference : Recorded bareReference := by
  unfold bareReference
  infer_instance

instance recorded_modification (word : Parser (List Token)) [Recorded word] :
    Recorded (modification word) := by
  unfold modification
  infer_instance

instance recorded_bracedReference (word : Parser (List Token)) [Recorded word] :
    Recorded (bracedReference word) := by
  unfold bracedReference
  infer_instance

instance recorded_referenceWith (word : Parser (List Token)) [Recorded word] :
    Recorded (referenceWith word) := by
  unfold referenceWith
  infer_instance

instance recorded_literalChar (rules : ContentRules) : Recorded (literalChar rules) := by
  have looks : literalChar rules = fun c =>
      (if startsPlain rules c.toPlace.rest then satisfy .literalChar fun _ => true
        else fail .literalChar) c := by
    funext c
    rw [literalChar_apply]
    split <;> rfl
  rw [looks]
  exact recorded_look (f := fun place =>
    if startsPlain rules place.rest then satisfy .literalChar fun _ => true
      else fail .literalChar) fun _ => inferInstance

instance recorded_unit (word : Parser (List Token)) [Recorded word] (rules : ContentRules) :
    Recorded (unit word rules) := by
  unfold unit
  infer_instance

instance recorded_firstUnit (word : Parser (List Token)) [Recorded word] (rules : ContentRules) :
    Recorded (firstUnit word rules) := by
  unfold firstUnit
  infer_instance

instance recorded_laterUnit (word : Parser (List Token)) [Recorded word] (rules : ContentRules) :
    Recorded (laterUnit word rules) := by
  unfold laterUnit
  infer_instance

instance recorded_contentWith (word : Parser (List Token)) [Recorded word]
    (rules : ContentRules) : Recorded (contentWith word rules) := by
  unfold contentWith
  infer_instance

theorem recorded_contentUpTo (n : Nat) (rules : ContentRules) :
    Recorded (contentUpTo n rules) := by
  induction n generalizing rules with
  | zero => exact recorded_fail .literal
  | succ n ih =>
    have := ih (.word rules.escape)
    rw [contentUpTo]
    infer_instance

instance recorded_content (rules : ContentRules) : Recorded (content rules) := by
  have looks : content rules = fun c => contentUpTo (c.toPlace.left + 1) rules c :=
    funext fun c => (agreeUpTo_contentUpTo rules (Nat.lt_succ_self c.left) c (Nat.le_refl _)).1
  rw [looks]
  exact recorded_look (f := fun place => contentUpTo (place.left + 1) rules)
    fun place => recorded_contentUpTo (place.left + 1) rules

instance recorded_reference (escape : Char) : Recorded (reference escape) := by
  unfold reference
  infer_instance

/-! ## Literals, identifiers and keywords -/

theorem recorded_inOptionalQuotes_go {inner : Option Quote → Parser α}
    (h : ∀ quote, Recorded (inner quote)) (quotes : List Quote) :
    Recorded (inOptionalQuotes.go inner quotes) := by
  induction quotes with
  | nil =>
    unfold inOptionalQuotes.go
    infer_instance
  | cons quote quotes ih =>
    unfold inOptionalQuotes.go
    infer_instance

instance recorded_inOptionalQuotes (inner : Option Quote → Parser α)
    [h : ∀ quote, Recorded (inner quote)] : Recorded (inOptionalQuotes inner) :=
  recorded_inOptionalQuotes_go h Quote.all

instance recorded_literalContent (escape : Char) (spacing : Spacing) (excluded : List Char)
    (quote : Option Quote) : Recorded (literalContent escape spacing excluded quote) := by
  cases quote <;> simp only [literalContent] <;> infer_instance

instance recorded_literal (escape : Char) (spacing : Spacing) (excluded : List Char) :
    Recorded (literal escape spacing excluded) := by
  unfold literal
  infer_instance

instance recorded_laterChar (rules : NameRules) (excluded : List Char) :
    Recorded (laterChar rules excluded) := by
  unfold laterChar
  infer_instance

instance recorded_nameRun (rules : NameRules) (excluded : List Char) :
    Recorded (nameRun rules excluded) := by
  unfold nameRun
  infer_instance

instance recorded_identifier (rules : NameRules) : Recorded (identifier rules) := by
  unfold identifier
  infer_instance

instance recorded_identifierContent (rules : NameRules) (quote : Option Quote) :
    Recorded (identifierContent rules quote) := by
  unfold identifierContent
  infer_instance

instance recorded_identifierAggregate (rules : NameRules) :
    Recorded (identifierAggregate rules) := by
  unfold identifierAggregate
  infer_instance

instance recorded_keywordTail (escape : Char) (what : Expectation) (letters : Text) :
    Recorded (keywordTail escape what letters) := by
  induction letters with
  | nil =>
    unfold keywordTail
    infer_instance
  | cons letter letters ih =>
    unfold keywordTail
    infer_instance

instance recorded_keyword (escape : Char) (name : Text) : Recorded (keyword escape name) := by
  unfold keyword
  cases name <;> infer_instance

/-! ## Instructions, owners and pairs -/

instance recorded_blankRun : Recorded blankRun := by
  unfold blankRun
  infer_instance

instance recorded_optionalContinuation (escape : Char) :
    Recorded (optionalContinuation escape) := by
  unfold optionalContinuation
  infer_instance

instance recorded_keywordEnd (escape : Char) : Recorded (keywordEnd escape) := by
  unfold keywordEnd
  refine @recorded_bind _ _ _ _ inferInstance fun o => ?_
  cases o <;> infer_instance

instance recorded_interludes : Recorded interludes := by
  unfold interludes
  infer_instance

instance recorded_heading (escape : Char) (name : Text) : Recorded (heading escape name) := by
  unfold heading
  infer_instance

instance recorded_framed (escape : Char) (arguments : Parser α) [Recorded arguments] :
    Recorded (framed escape arguments) := by
  unfold framed
  infer_instance

instance recorded_argName (escape : Char) : Recorded (argName escape) := by
  unfold argName
  infer_instance

instance recorded_argBody (escape : Char) : Recorded (argBody escape) := by
  unfold argBody
  infer_instance

instance recorded_arg (escape : Char) : Recorded (arg escape) := by
  unfold arg
  infer_instance

instance recorded_ownerPart (escape : Char) : Recorded (ownerPart escape) := by
  unfold ownerPart
  infer_instance

instance recorded_ownerGroup (escape : Char) : Recorded (ownerGroup escape) := by
  unfold ownerGroup
  infer_instance

instance recorded_owner (escape : Char) : Recorded (owner escape) := by
  unfold owner
  infer_instance

instance recorded_separator : Recorded separator := by
  unfold separator
  infer_instance

instance recorded_keyValue {K V : ValueKind} (escape : Char) (isFlag : Bool)
    (key : Parser K.Carrier) (value : Parser V.Carrier) [Recorded key] [Recorded value] :
    Recorded (keyValue escape isFlag key value) := by
  unfold keyValue
  infer_instance

end Grammar

/-! ## Grammars as data -/

open DockerfileSyntax.Parser

instance recorded_valueProduction {kind : ValueKind} (production : ValueProduction kind) :
    Recorded production.parser := by
  cases production <;> unfold ValueProduction.parser <;> infer_instance

namespace Production

instance recorded_triviaTokens (p : Parser (List Trivia)) [Recorded p] :
    Recorded (triviaTokens p) := by
  unfold triviaTokens
  infer_instance

instance recorded_single {α : Type} (toToken : α → Token) (p : Parser α) [Recorded p] :
    Recorded (single toToken p) := by
  unfold single
  infer_instance

theorem recorded_inOrder {ps : List (Parser (List Token))} (h : ∀ p ∈ ps, Recorded p) :
    Recorded (inOrder ps) := by
  induction ps with
  | nil =>
    unfold inOrder
    infer_instance
  | cons p ps ih =>
    have hp : Recorded p := h p List.mem_cons_self
    have hps : Recorded (inOrder ps) := ih fun q hq => h q (List.mem_cons_of_mem _ hq)
    unfold inOrder
    infer_instance

mutual

/-- Whatever grammar is put together from the others has a log. -/
theorem recorded : (production : Production) → Recorded production.parser
  | sequence items => recorded_inOrder (recorded_parsers items)
  | attempt item => by
    have := recorded item
    rw [parser]
    infer_instance
  | optional item => by
    have := recorded item
    rw [parser]
    infer_instance
  | many item => by
    have := recorded item
    rw [parser]
    infer_instance
  | many1 item => by
    have := recorded item
    rw [parser]
    infer_instance
  | firstOf alternatives => recorded_firstOf (recorded_parsers alternatives)
  | instruction escape name arguments => by
    have := recorded arguments
    rw [parser]
    infer_instance
  | argumentTokens escape arguments => by
    have := recorded arguments
    rw [parser]
    infer_instance
  | quoted single double bare => by
    have hs := recorded single
    have hd := recorded double
    have hb := recorded bare
    have (quote : Option Quote) :
        Recorded (byQuote (parser single) (parser double) (parser bare) quote) := by
      rcases quote with _ | _ | _
      · exact hb
      · exact hs
      · exact hd
    rw [parser]
    infer_instance
  | endOfInput | fail _ | satisfy _ _ | takeWhile _ | eat _ | symbol _ | punctuation _ | newLine
  | continuation _ | escapedChar _ | comment | blankRun | whitespace | commentLine
  | trailingComments | blankLine | reference _ | keyword _ _ | literal _ _ _
  | literalContent _ _ _ _ | identifier _ | identifierAggregate _ | identifierContent _ _
  | keyValue _ _ _ _ _ => by
    rw [parser]
    infer_instance

theorem recorded_parsers : (productions : List Production) → ∀ p ∈ parsers productions, Recorded p
  | [] => nofun
  | item :: items => by
    rw [parsers, List.forall_mem_cons]
    exact ⟨recorded item, recorded_parsers items⟩

end

end Production

end DockerfileSyntax
