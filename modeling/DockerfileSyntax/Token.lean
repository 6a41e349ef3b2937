import DockerfileSyntax.Quote

/-!
# Tokens

The concrete syntax tree. A leaf holds the text it was read from; a node holds its parts, and its
own text and value follow from them. Quotes, the dollar sign and the braces of a reference are not
parts: they are properties of the node.
-/

namespace DockerfileSyntax

/-- The kinds of leaf. -/
inductive LeafKind where
  /-- a run of characters without further structure -/
  | string
  /-- white space within a line -/
  | whitespace
  /-- the end of a line -/
  | newLine
  /-- a comment, from its `#` to the end of the line -/
  | comment
  /-- fixed characters of the syntax, such as `:`, `--`, a modifier or an escape character -/
  | symbol
  /-- the punctuation of an assignment -/
  | punctuation
deriving DecidableEq

/-- The kinds of node, each with the properties that are not among its parts. -/
inductive NodeKind where
  /-- an escape character, white space and a line end: the line goes on below -/
  | continuation
  /-- a reserved word -/
  | keyword
  /-- a name -/
  | identifier (quote : Option Quote)
  /-- a text that may refer to variables -/
  | literal (quote : Option Quote)
  /-- a reference to a variable -/
  | reference (braced : Bool)
deriving DecidableEq

/-- A concrete syntax tree. -/
inductive Token where
  | leaf (kind : LeafKind) (text : Text)
  | node (kind : NodeKind) (children : List Token)

namespace Token

@[match_pattern] abbrev string (text : Text) : Token := leaf .string text
@[match_pattern] abbrev whitespace (text : Text) : Token := leaf .whitespace text
@[match_pattern] abbrev newLine (text : Text) : Token := leaf .newLine text
@[match_pattern] abbrev comment (text : Text) : Token := leaf .comment text
@[match_pattern] abbrev symbol (text : Text) : Token := leaf .symbol text
@[match_pattern] abbrev punctuation (text : Text) : Token := leaf .punctuation text
@[match_pattern] abbrev continuation (children : List Token) : Token := node .continuation children
@[match_pattern] abbrev keyword (children : List Token) : Token := node .keyword children
@[match_pattern] abbrev identifier (quote : Option Quote) (children : List Token) : Token :=
  node (.identifier quote) children
@[match_pattern] abbrev literal (quote : Option Quote) (children : List Token) : Token :=
  node (.literal quote) children
@[match_pattern] abbrev reference (braced : Bool) (children : List Token) : Token :=
  node (.reference braced) children

/-- The parts of a node; a leaf has none. -/
def children : Token → List Token
  | leaf _ _ => []
  | node _ children => children

/-- A token with parts, even if the list of its parts is empty. -/
def isNode : Token → Bool
  | leaf _ _ => false
  | node _ _ => true

/-- The name of a token's kind. -/
def kindName : Token → Text
  | leaf .string _ => "String".toList
  | leaf .whitespace _ => "Whitespace".toList
  | leaf .newLine _ => "NewLine".toList
  | leaf .comment _ => "Comment".toList
  | leaf .symbol _ => "Symbol".toList
  | leaf .punctuation _ => "Punctuation".toList
  | node .continuation _ => "LineContinuation".toList
  | node .keyword _ => "Keyword".toList
  | node (.identifier _) _ => "Identifier".toList
  | node (.literal _) _ => "Literal".toList
  | node (.reference _) _ => "VariableRef".toList

mutual

/-- Decides whether two trees are the same. -/
def decEq : (s t : Token) → Decidable (s = t)
  | leaf k a, leaf l b =>
    if h : k = l ∧ a = b then isTrue (by rw [h.1, h.2])
    else isFalse fun e => h (by cases e; exact ⟨rfl, rfl⟩)
  | node k a, node l b =>
    if hk : k = l then
      match decEqList a b with
      | isTrue h => isTrue (by rw [hk, h])
      | isFalse h => isFalse fun e => h (by cases e; rfl)
    else isFalse fun e => hk (by cases e; rfl)
  | leaf _ _, node _ _ => isFalse nofun
  | node _ _, leaf _ _ => isFalse nofun

/-- Decides whether two lists of trees are the same. -/
def decEqList : (s t : List Token) → Decidable (s = t)
  | [], [] => isTrue rfl
  | a :: as, b :: bs =>
    match decEq a b, decEqList as bs with
    | isTrue h, isTrue hs => isTrue (by rw [h, hs])
    | isFalse h, _ => isFalse fun e => h (by cases e; rfl)
    | _, isFalse h => isFalse fun e => h (by cases e; rfl)
  | [], _ :: _ => isFalse nofun
  | _ :: _, [] => isFalse nofun

end

instance : DecidableEq Token := decEq

end Token

/-- Joins adjacent strings and drops empty ones. -/
def mergeStrings : List Token → List Token
  | [] => []
  | .leaf .string text :: tokens =>
    match mergeStrings tokens with
    | .leaf .string more :: others => .string (text ++ more) :: others
    | others => if text.isEmpty then others else .string text :: others
  | token :: tokens => token :: mergeStrings tokens

/-- White space as a token, if there is any. -/
def blankTokens (blanks : Text) : List Token :=
  if blanks.isEmpty then [] else [.whitespace blanks]

end DockerfileSyntax
