import DockerfileSyntax.Edit.Value
import DockerfileSyntax.Grammar.Literal

/-!
# Owners

`user` or `user:group`: the owner of a file, as `--chown` takes it. Line continuations may surround
the colon. Neither part may be empty, and a colon within a part needs quotes or an escape.
-/

namespace DockerfileSyntax

/-- The owner of a file, with the escape character that its source text uses. -/
structure Owner where
  user : Literal
  /-- line continuations behind the user; they stay when the group is removed -/
  breaks : List Continuation
  /-- the group, with the line continuations between the colon and it -/
  group : Option (List Continuation × Literal)
  escape : Char
deriving DecidableEq

namespace Grammar

open DockerfileSyntax.Parser

/-- A user or a group: a literal without white space and colons. -/
def ownerPart (escape : Char) : Parser Literal :=
  literal escape .ends [':']

/-- The colon and the group, with the line continuations on both sides of the colon. -/
def ownerGroup (escape : Char) : Parser (List Continuation × List Continuation × Literal) := do
  let before ← continuations escape
  eat [':']
  let after ← continuations escape
  let group ← ownerPart escape
  return (before, after, group)

/-- A user and an optional group. -/
def owner (escape : Char) : Parser Owner := do
  let user ← ownerPart escape
  match ← optional (ownerGroup escape) with
  | none => return ⟨user, [], none, escape⟩
  | some (before, group) => return ⟨user, before, some group, escape⟩

end Grammar

namespace Owner

/-- Reads an owner, with the given escape character. -/
def parse (escape : Char) (text : Text) : Except Error Owner :=
  readAll (Grammar.owner escape) text

/-- The owner with these parts, each in double quotes if it holds white space. An empty group is no
group. -/
def create (user : Text) (group : Option Text) : Except Error Owner := do
  requireNonEmpty .user user
  let groupText := match group with
    | none | some [] => []
    | some group => ':' :: canonicalText group
  parse defaultEscape (canonicalText user ++ groupText)

/-- The colon and the group as tokens. -/
def groupTokens : Option (List Continuation × Literal) → List Token
  | none => []
  | some (breaks, group) =>
    .symbol [':'] :: breaks.map Continuation.toToken ++ [group.toToken]

/-- The owner as tokens. -/
def tokens (o : Owner) : List Token :=
  o.user.toToken :: o.breaks.map Continuation.toToken ++ groupTokens o.group

/-- The source text of the owner. -/
def render (o : Owner) : Text := Token.renderAll o.tokens

/-- The name of the user. -/
def userName (o : Owner) : Text := o.user.value

/-- The literal of the group. -/
def groupLiteral (o : Owner) : Option Literal := o.group.map Prod.snd

/-- The name of the group. -/
def groupName (o : Owner) : Option Text := o.groupLiteral.map Literal.value

/-- The owner with another literal for its user, unchecked. -/
def withUser (o : Owner) (user : Literal) : Owner := { o with user }

/-- The owner with another literal for its group, unchecked; a new group stands right behind the
colon. -/
def withGroup (o : Owner) (group : Literal) : Owner :=
  match o.group with
  | none => { o with group := some ([], group) }
  | some (breaks, _) => { o with group := some (breaks, group) }

/-- The owner without a group. -/
def withoutGroup (o : Owner) : Owner := { o with group := none }

/-- Checks that a literal is not empty and that its source text reads as one part. -/
def checkPart (o : Owner) (field : EditField) (part : Literal) : Except Error Unit :=
  if part.children.isEmpty then .error (.invalid field .empty)
  else
    match (Grammar.ownerPart o.escape).complete part.render with
    | .ok _ => .ok ()
    | .error failure => .error (.invalid field (.unreadable part.render failure))

/-- Replaces the literal of the user. -/
def setUserLiteral (user : Literal) : Edit Owner Unit := do
  (← get).checkPart .user user
  modify (·.withUser user)

/-- Replaces, adds or removes the literal of the group. -/
def setGroupLiteral : Option Literal → Edit Owner Unit
  | none => modify withoutGroup
  | some group => do
    (← get).checkPart .group group
    modify (·.withGroup group)

/-- Sets the user. -/
def setUser (value : Text) : Edit Owner Unit := do
  let o ← get
  Edit.within o.user o.withUser (Literal.setContent .user o.escape [':'] false value)

/-- Sets the group, or removes it if the new one is missing or empty. -/
def setGroup : Option Text → Edit Owner Unit
  | none | some [] => modify withoutGroup
  | some value => do
    let o ← get
    let setting := Literal.setContent .group o.escape [':'] false value
    match o.groupLiteral with
    | some group => Edit.within group o.withGroup setting
    | none =>
      let group ← Edit.edited setting .empty
      setGroupLiteral (some group)

end Owner

end DockerfileSyntax
