import DockerfileSyntax.Edit.Value
import DockerfileSyntax.Grammar.Identifier

/-!
# Keys and values

`key`, `key=value`, `--key` and `--key=value`. The separator may also be a colon or white space. The
key and the value are tokens of fixed kinds, which decide how they are edited.
-/

namespace DockerfileSyntax

/-- The kinds of token that can be a key or a value. -/
inductive ValueKind where
  | keyword
  | identifier
  | literal
deriving DecidableEq

namespace ValueKind

/-- The tokens of a kind. -/
@[reducible] def Carrier : ValueKind → Type
  | keyword => Keyword
  | identifier => Identifier
  | literal => Literal

/-- The name of the kind. -/
def name : ValueKind → Text
  | keyword => "Keyword".toList
  | identifier => "Identifier".toList
  | literal => "Literal".toList

/-- A key or a value as a token. -/
def toToken : (kind : ValueKind) → kind.Carrier → Token
  | keyword, k => k.toToken
  | identifier, i => i.toToken
  | literal, l => l.toToken

/-- The key or value that a token is. -/
def ofToken? : (kind : ValueKind) → Token → Option kind.Carrier
  | keyword, .keyword children => some (⟨children⟩ : Keyword)
  | identifier, .identifier quote children => some (⟨quote, children⟩ : Identifier)
  | literal, .literal quote children => some (⟨quote, children⟩ : Literal)
  | _, _ => none

/-- The text of a key or a value, without quotes and line continuations. -/
def value : (kind : ValueKind) → kind.Carrier → Text
  | keyword, k => k.value
  | identifier, i => i.value
  | literal, l => l.value

/-- The canonical key or value with a text: in double quotes if it holds white space, unless its
kind has no quotes. -/
def ofValue : (kind : ValueKind) → Text → kind.Carrier
  | keyword, text => Keyword.new text
  | identifier, text => Identifier.ofValue text
  | literal, text => Literal.ofValue text

/-- Sets the text of a key or a value. A literal without quotes may not become empty. -/
def setText : (kind : ValueKind) → Char → Text → Edit kind.Carrier Unit
  | keyword, _, text => Keyword.setText text
  | identifier, escape, text => Identifier.setText escape text
  | literal, escape, text => Literal.setContent .value escape [] false text

end ValueKind

/-- What stands between a key and its value. -/
inductive Separator where
  | equals
  | colon
  | blanks (text : Text)
deriving DecidableEq

namespace Separator

def toToken : Separator → Token
  | equals => .punctuation ['=']
  | colon => .punctuation [':']
  | blanks text => .whitespace text

/-- The separator that a token is. -/
def ofToken? : Token → Option Separator
  | .punctuation text =>
    if text = ['='] then some equals else if text = [':'] then some colon else none
  | .whitespace text => some (blanks text)
  | _ => none

end Separator

/-- The two dashes before the key of a flag. -/
def flagMark : Text := ['-', '-']

/-- A key of one kind and perhaps a value of another, with the escape character for edits. -/
structure KeyValue (K V : ValueKind) where
  isFlag : Bool
  keyToken : K.Carrier
  assigned : Option (Separator × V.Carrier)
  escape : Char

namespace Grammar

open DockerfileSyntax.Parser

/-- An equals sign, a colon or white space. -/
def separator : Parser Separator := do
  let punctuated ← optional (firstOf [
    do eat ['=']; return Separator.equals,
    do eat [':']; return Separator.colon])
  match punctuated with
  | some found => return found
  | none =>
    let gap ← blanks
    if gap.isEmpty then fail .separator else return .blanks gap

/-- A key, behind two dashes if it is a flag, and perhaps a separator and a value. -/
def keyValue {K V : ValueKind} (escape : Char) (isFlag : Bool) (key : Parser K.Carrier)
    (value : Parser V.Carrier) : Parser (KeyValue K V) := do
  if isFlag then eat flagMark
  let keyToken ← key
  let assigned ← optional do
    let between ← separator
    let found ← value
    return (between, found)
  return { isFlag, keyToken, assigned, escape }

end Grammar

namespace KeyValue

variable {K V : ValueKind}

/-- Reads a key and perhaps a value with the given grammars. -/
def parse (escape : Char) (isFlag : Bool) (key : Parser K.Carrier) (value : Parser V.Carrier)
    (text : Text) : Except Error (KeyValue K V) :=
  readAll (Grammar.keyValue escape isFlag key value) text

/-- The pair with this key and value, read back from its canonical text with the given grammars. -/
def create (escape : Char) (isFlag : Bool) (key : Parser K.Carrier) (value : Parser V.Carrier)
    (keyText : Text) (valueText : Option Text) : Except Error (KeyValue K V) := do
  requireNonEmpty .key keyText
  let mark := if isFlag then flagMark else []
  let assigned := match valueText with
    | none => []
    | some text => '=' :: (V.toToken (V.ofValue text)).render
  parse escape isFlag key value (mark ++ (K.toToken (K.ofValue keyText)).render ++ assigned)

/-- The separator and the value that the tokens behind a key are; `none` if they have another
shape. -/
def assignedOfTokens? : List Token → Option (Option (Separator × V.Carrier))
  | [] => some none
  | [between, token] =>
    match Separator.ofToken? between, V.ofToken? token with
    | some separator, some value => some (some (separator, value))
    | _, _ => none
  | _ => none

/-- The key and value that tokens without a flag mark are. -/
def ofUnflagged (escape : Char) (isFlag : Bool) : List Token → Except Error (KeyValue K V)
  | [] => .error (.shape .noKey)
  | token :: tokens =>
    match K.ofToken? token, assignedOfTokens? tokens with
    | none, _ => .error (.shape (.wrongKey token K.name))
    | some _, none => .error (.shape .badEnding)
    | some keyToken, some assigned => .ok { isFlag, keyToken, assigned, escape }

/-- The key and value that tokens are. -/
def ofTokens (escape : Char) : List Token → Except Error (KeyValue K V)
  | .symbol mark :: tokens =>
    if mark = flagMark then ofUnflagged escape true tokens
    else ofUnflagged escape false (.symbol mark :: tokens)
  | tokens => ofUnflagged escape false tokens

/-- The pair as tokens. -/
def tokens (p : KeyValue K V) : List Token :=
  (if p.isFlag then [.symbol flagMark] else []) ++ K.toToken p.keyToken ::
    match p.assigned with
    | none => []
    | some (separator, value) => [separator.toToken, V.toToken value]

/-- The source text of the pair. -/
def render (p : KeyValue K V) : Text := Token.renderAll p.tokens

/-- The text of the key. -/
def key (p : KeyValue K V) : Text := K.value p.keyToken

/-- The token of the value. -/
def valueToken (p : KeyValue K V) : Option V.Carrier := p.assigned.map Prod.snd

/-- The text of the value. -/
def value (p : KeyValue K V) : Option Text := p.valueToken.map V.value

/-- The pair with another token for its key. -/
def withKeyToken (p : KeyValue K V) (keyToken : K.Carrier) : KeyValue K V := { p with keyToken }

/-- The pair with another token for its value, if it has one. -/
def withValueToken (p : KeyValue K V) (value : V.Carrier) : KeyValue K V :=
  { p with assigned := p.assigned.map fun pair => (pair.1, value) }

/-- Sets the key. -/
def setKey (text : Text) : Edit (KeyValue K V) Unit := do
  let p ← get
  Edit.within p.keyToken p.withKeyToken (K.setText p.escape text)

/-- Sets the value, adds one behind `=`, or removes it together with its separator. -/
def setValue : Option Text → Edit (KeyValue K V) Unit
  | none => modify fun p => { p with assigned := none }
  | some text => do
    let p ← get
    let setting := V.setText p.escape text
    match p.valueToken with
    | some value => Edit.within value p.withValueToken setting
    | none =>
      let value ← Edit.edited setting (V.ofValue text)
      set { p with assigned := some (Separator.equals, value) }

end KeyValue

end DockerfileSyntax
