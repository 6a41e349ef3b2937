import DockerfileSyntax.Instruction
import DockerfileSyntax.KeyValue

/-!
# Grammars as data

A `Production` is a grammar built from the primitives and combinators of this library. Its parser
gives a list of tokens, so that any two productions can be put together, and a statement about all
grammars is a statement about all productions.
-/

namespace DockerfileSyntax

/-- A grammar for a key or a value, by the kind of token that it gives. -/
inductive ValueProduction : ValueKind → Type where
  | keyword (escape : Char) (name : Text) : ValueProduction .keyword
  | identifier (rules : NameRules) : ValueProduction .identifier
  | aggregate (rules : NameRules) : ValueProduction .identifier
  | literal (escape : Char) (spacing : Spacing) (excluded : List Char) : ValueProduction .literal

/-- The parser of a grammar for a key or a value. -/
def ValueProduction.parser : {kind : ValueKind} → ValueProduction kind → Parser kind.Carrier
  | _, keyword escape name => Grammar.keyword escape name
  | _, identifier rules => Grammar.identifier rules
  | _, aggregate rules => Grammar.identifierAggregate rules
  | _, literal escape spacing excluded => Grammar.literal escape spacing excluded

/-- A grammar that gives tokens. -/
inductive Production where
  /-- the items in order; the first failure is the failure of the whole -/
  | sequence (items : List Production)
  | attempt (item : Production)
  | optional (item : Production)
  | many (item : Production)
  | many1 (item : Production)
  | firstOf (alternatives : List Production)
  | endOfInput
  | fail (label : Text)
  | satisfy (label : Text) (holds : Char → Bool)
  | takeWhile (holds : Char → Bool)
  | eat (text : Text)
  | symbol (text : Text)
  | punctuation (text : Text)
  | newLine
  | continuation (escape : Char)
  | escapedChar (escape : Char)
  | comment
  | blankRun
  | whitespace
  | commentLine
  | trailingComments
  | blankLine
  | instruction (escape : Char) (name : Text) (arguments : Production)
  | argumentTokens (escape : Char) (arguments : Production)
  /-- one of the three items, by the quotes around it -/
  | quoted (single double bare : Production)
  | reference (escape : Char)
  | keyword (escape : Char) (name : Text)
  | literal (escape : Char) (spacing : Spacing) (excluded : List Char)
  | literalContent (escape : Char) (spacing : Spacing) (excluded : List Char)
      (quote : Option Quote)
  | identifier (rules : NameRules)
  | identifierAggregate (rules : NameRules)
  | identifierContent (rules : NameRules) (quote : Option Quote)
  | keyValue (isFlag : Bool) (K V : ValueKind) (key : ValueProduction K)
      (value : ValueProduction V)

namespace Production

/-- Trivia as tokens. -/
def triviaTokens (p : Parser (List Trivia)) : Parser (List Token) := do
  let found ← p
  return found.map Trivia.toToken

/-- A single token as a list. -/
def single {α : Type} (toToken : α → Token) (p : Parser α) : Parser (List Token) := do
  let found ← p
  return [toToken found]

/-- The parser for items in order. -/
def inOrder : List (Parser (List Token)) → Parser (List Token)
  | [] => return []
  | p :: ps => do
    let first ← p
    let others ← inOrder ps
    return first ++ others

/-- One of three parsers, by the quote. -/
def byQuote {α : Type} (single double bare : α) : Option Quote → α
  | some .single => single
  | some .double => double
  | none => bare

mutual

/-- The parser of a grammar. -/
def parser : Production → Parser (List Token)
  | sequence items => inOrder (parsers items)
  | attempt item => Parser.attempt (parser item)
  | optional item => do
    let found ← Parser.optional (parser item)
    return found.getD []
  | many item => do
    let found ← Parser.many (parser item)
    return found.flatten
  | many1 item => do
    let found ← Parser.many1 (parser item)
    return found.flatten
  | firstOf alternatives => Parser.firstOf (parsers alternatives)
  | endOfInput => do
    Parser.endOfInput
    return []
  | fail label => Parser.fail (.described label)
  | satisfy label holds => single (fun c => .string [c]) (Parser.satisfy (.described label) holds)
  | takeWhile holds => single Token.string (Parser.takeWhile holds)
  | eat text => single (fun _ => .string text) (Parser.eat text)
  | symbol text => single (fun _ => .symbol text) (Parser.eat text)
  | punctuation text => single (fun _ => .punctuation text) (Parser.eat text)
  | newLine => single Token.newLine Grammar.newLine
  | continuation escape => single Continuation.toToken (Grammar.continuation escape)
  | escapedChar escape => single Token.string (Grammar.escapedChar escape)
  | comment => single Token.comment Grammar.comment
  | blankRun => triviaTokens Grammar.blankRun
  | whitespace => triviaTokens Grammar.whitespace
  | commentLine => triviaTokens Grammar.commentLine
  | trailingComments => triviaTokens Grammar.trailingComments
  | blankLine => triviaTokens Grammar.blankLine
  | instruction escape name arguments => do
    let heading ← Grammar.heading escape name
    let content ← parser arguments
    return heading.tokens ++ content
  | argumentTokens escape arguments => do
    let found ← Grammar.framed escape (parser arguments)
    return found.before.map Trivia.toToken ++ found.content ++ found.after.map Trivia.toToken
  | quoted single double bare => do
    let (quote, content) ← Grammar.inOptionalQuotes
      (byQuote (parser single) (parser double) (parser bare))
    return .symbol (Quote.mark quote) :: content
  | reference escape => single Reference.toToken (Grammar.reference escape)
  | keyword escape name => single Keyword.toToken (Grammar.keyword escape name)
  | literal escape spacing excluded =>
    single Literal.toToken (Grammar.literal escape spacing excluded)
  | literalContent escape spacing excluded quote =>
    Grammar.literalContent escape spacing excluded quote
  | identifier rules => single Identifier.toToken (Grammar.identifier rules)
  | identifierAggregate rules => single Identifier.toToken (Grammar.identifierAggregate rules)
  | identifierContent rules quote => Grammar.identifierContent rules quote
  | keyValue isFlag _ _ key value => do
    let found ← Grammar.keyValue defaultEscape isFlag key.parser value.parser
    return found.tokens

/-- The parsers of some grammars. -/
def parsers : List Production → List (Parser (List Token))
  | [] => []
  | item :: items => parser item :: parsers items

end

/-- Reads the whole of a text. -/
def read (production : Production) (text : Text) : Except Failure (List Token) :=
  production.parser.complete text

end Production

end DockerfileSyntax
