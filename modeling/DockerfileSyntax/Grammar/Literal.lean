import DockerfileSyntax.Grammar.Trivia

/-!
# The grammar of literals and variable references

A literal is a run of units: characters, escaped characters and variable references, each behind any
number of line continuations. A braced reference may hold a word, and the word is a run of units
again; it begins behind the opening brace, so it has less text before it, and that is why
`content` ends.
-/

namespace DockerfileSyntax

/-- How the content of a literal treats white space within a line. -/
inductive Spacing where
  /-- white space ends the content -/
  | ends
  /-- white space separates content from content -/
  | separates
  /-- white space is content -/
  | content
deriving DecidableEq

/-- The rules for the content of a literal. -/
structure ContentRules where
  escape : Char
  spacing : Spacing
  /-- characters that end the content, unless they are escaped -/
  excluded : List Char

namespace ContentRules

/-- The rules within the braces of a reference. -/
def word (escape : Char) : ContentRules := ⟨escape, .content, ['\x7d']⟩

/-- The rules within quotes. -/
def quoted (escape : Char) (quote : Quote) : ContentRules := ⟨escape, .content, [quote.char]⟩

/-- The rules outside quotes, where a quote ends the content. -/
def bare (escape : Char) (spacing : Spacing) (excluded : List Char) : ContentRules :=
  ⟨escape, spacing, excluded ++ Quote.all.map Quote.char⟩

end ContentRules

namespace Grammar

open DockerfileSyntax.Parser

/-! ## References -/

/-- The rest begins with a variable reference, as far as its first two characters tell. -/
def startsReference : Text → Bool
  | '$' :: c :: _ => c == '\x7b' || isVariableNameStart c
  | _ => false

/-- The name of a variable. -/
def variableName : Parser Text := do
  let head ← satisfy .variableName isVariableNameStart
  let tail ← takeWhile isVariableNameChar
  return head :: tail

/-- A reference without braces: `$NAME`. -/
def bareReference : Parser Reference := attempt do
  eat ['$']
  let name ← variableName
  return ⟨false, [.string name]⟩

/-- The modifier of a reference and its word; the word may be empty. -/
def modification (word : Parser (List Token)) : Parser (List Token) := do
  match ← optional (choose .modifier Modifier.symbol Modifier.all) with
  | none => return []
  | some modifier =>
    let children ← optional word
    return [.symbol modifier.symbol, .literal none (children.getD [])]

/-- A reference in braces: the name, and perhaps a modifier and a word. -/
def bracedReference (word : Parser (List Token)) : Parser Reference := attempt do
  eat ['$', '\x7b']
  let name ← variableName
  let modified ← modification word
  eat ['\x7d']
  return ⟨true, .string name :: modified⟩

/-- A reference to a variable, with the given grammar of words. -/
def referenceWith (word : Parser (List Token)) : Parser Reference :=
  firstOf [bareReference, bracedReference word]

/-! ## Content -/

/-- The rest begins with a character of content that stands for itself: it is neither the escape
character nor a line end nor excluded, it is no white space unless that is content, and it is no
dollar sign that begins a reference. -/
def startsPlain (rules : ContentRules) : Text → Bool
  | [] => false
  | c :: cs =>
    if c == rules.escape || isLineEnd c || rules.excluded.contains c then false
    else if isInlineBlank c then rules.spacing == .content
    else !startsReference (c :: cs)

/-- One character of content that stands for itself. -/
def literalChar (rules : ContentRules) : Parser Char := fun c =>
  if startsPlain rules c.rest then satisfy .literalChar (fun _ => true) c
  else fail .literalChar c

/-- One unit of content: a reference, a character or an escaped character, behind any number of
line continuations. -/
def unit (word : Parser (List Token)) (rules : ContentRules) : Parser (List Token) := attempt do
  let breaks ← continuations rules.escape
  let breaks := breaks.map Continuation.toToken
  match ← optional (referenceWith word) with
  | some reference => return breaks ++ [reference.toToken]
  | none =>
    match ← optional (literalChar rules) with
    | some found => return breaks ++ [.string [found]]
    | none =>
      let escaped ← escapedChar rules.escape
      return breaks ++ [.string escaped]

/-- The first unit of content. It may not begin with a line continuation. -/
def firstUnit (word : Parser (List Token)) (rules : ContentRules) : Parser (List Token) :=
  attempt do
    if ← sees (continuation rules.escape) then fail .literal else unit word rules

/-- A later unit of content, behind white space where that separates. -/
def laterUnit (word : Parser (List Token)) (rules : ContentRules) : Parser (List Token) := do
  let gap ← if rules.spacing = .separates then blanks else pure []
  let parts ← unit word rules
  return blankTokens gap ++ parts

/-- One or more units of content, with the given grammar of words. -/
def contentWith (word : Parser (List Token)) (rules : ContentRules) : Parser (List Token) := do
  let first ← firstUnit word rules
  let others ← many (laterUnit word rules)
  return mergeStrings (first ++ others.flatten)

/-- One or more units of content. Words follow the same grammar under the rules for words; a word
stands within a reference, so less is left to read there than here. -/
def content (rules : ContentRules) : Parser (List Token) := fun c =>
  contentWith
    (fun d => if d.left < c.left then content (.word rules.escape) d else fail .literal d)
    rules c
termination_by c => c.left

/-- A reference to a variable: `$NAME`, or in braces with an optional modifier and word. -/
def reference (escape : Char) : Parser Reference :=
  referenceWith (content (.word escape))

/-! ## Literals -/

/-- What `inner` reads within single quotes, within double quotes or, if neither is there, as it
is. `inner` is told the quote, so that it can end before it. -/
def inOptionalQuotes {α : Type} (inner : Option Quote → Parser α) : Parser (Option Quote × α) :=
  go Quote.all
where
  /-- The same, with the quotes that are left to try. -/
  go : List Quote → Parser (Option Quote × α)
    | [] => do
      let found ← inner none
      return (none, found)
    | quote :: quotes => do
      let wrapped ← optional do
        let _ ← satisfy .openingQuote (· == quote.char)
        let found ← inner (some quote)
        let _ ← satisfy (.closingQuote quote) (· == quote.char)
        return found
      match wrapped with
      | some found => return (some quote, found)
      | none => go quotes

/-- The parts of a literal. Within quotes white space is content, nothing but the quote is excluded
and there may be none; outside, there is at least one. -/
def literalContent (escape : Char) (spacing : Spacing) (excluded : List Char) :
    Option Quote → Parser (List Token)
  | some quote => do
    let children ← optional (content (.quoted escape quote))
    return children.getD []
  | none => content (.bare escape spacing excluded)

/-- A literal, with or without quotes. -/
def literal (escape : Char) (spacing : Spacing) (excluded : List Char) : Parser Literal := do
  let (quote, children) ← inOptionalQuotes (literalContent escape spacing excluded)
  return ⟨quote, children⟩

end Grammar

end DockerfileSyntax
