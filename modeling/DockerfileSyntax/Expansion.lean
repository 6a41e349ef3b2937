import DockerfileSyntax.Token.Payload

/-!
# Variable expansion

References to variables are replaced by text, after the rules of a shell: a modifier decides whether
a word stands in for an unset variable, replaces a set one, or tells why an unset one is refused.
The word is expanded itself, but only where it is used, and a value from the environment is never
expanded again. Single quotes keep what they wrap as it is.
-/

namespace DockerfileSyntax

/-- The values of variables; `none` for a variable that is not set. -/
abbrev Environment := Text → Option Text

/-- A variable that a reference requires and that is not set, with the message of the reference. -/
structure UnsetVariable where
  name : Text
  detail : Text
deriving DecidableEq

/-- What was done, and the error that ended it, if one did. -/
structure Progress (ε α : Type) where
  result : α
  error : Option ε
deriving DecidableEq

namespace Progress

variable {ε α : Type}

/-- The result, unless an error ended it. -/
def toExcept (p : Progress ε α) : Except ε α :=
  match p.error with
  | none => .ok p.result
  | some error => .error error

end Progress

/-- Whether a modifier takes a value for unset. -/
def Modifier.isUnset (m : Modifier) : Option Text → Bool
  | none => true
  | some value => m.emptyIsUnset && value.isEmpty

/-- The text that a reference stands for, given the expansion of its word. A word that is not used
does no harm if its own expansion fails. -/
def Reference.expansion (r : Reference) (env : Environment) (word : Except UnsetVariable Text) :
    Except UnsetVariable Text :=
  let value := env r.name
  match r.modifier? with
  | none => .ok (value.getD [])
  | some m =>
    match m.use, m.isUnset value with
    | .fallback, true => word
    | .alternate, true => .ok []
    | .alternate, false => word
    | .requirement, true => word.bind fun detail => .error ⟨r.name, detail⟩
    | .fallback, false | .requirement, false => .ok (value.getD [])

namespace Token

/-- The text of an expanded word: its parts without line continuations. -/
def wordText (parts : List Token) : Text :=
  renderAll (parts.filter fun | .continuation _ => false | _ => true)

mutual

/-- One part of a literal: a reference becomes a string, all else stays. -/
def expandPart (env : Environment) : Token → Except UnsetVariable Token
  | .leaf kind text => .ok (.leaf kind text)
  | .node kind children =>
    match kind with
    | .reference braced =>
      (Reference.expansion ⟨braced, children⟩ env (expandWord env children)).map string
    | _ => .ok (.node kind children)

/-- The parts of a literal in order; the first failure ends it. -/
def expandParts (env : Environment) : List Token → Except UnsetVariable (List Token)
  | [] => .ok []
  | token :: tokens => do
    let part ← expandPart env token
    let parts ← expandParts env tokens
    return part :: parts

/-- The expansion of the word of a reference with these parts: of the first literal among them. -/
def expandWord (env : Environment) : List Token → Except UnsetVariable Text
  | [] => .ok []
  | .leaf _ _ :: tokens => expandWord env tokens
  | .node kind children :: tokens =>
    match kind with
    | .literal _ => (expandParts env children).map wordText
    | _ => expandWord env tokens

end

/-- The parts of a literal or an identifier in this quote, with every reference expanded. Single
quotes keep them as they are. -/
def expandWithin (env : Environment) (quote : Option Quote) (children : List Token) :
    Except UnsetVariable (List Token) :=
  if quote = some .single then .ok children
  else (expandParts env children).map mergeStrings

mutual

/-- The tree with the references in its literals and identifiers expanded. At the first failure the
rest stays as it was. -/
def resolve (env : Environment) : Token → Progress UnsetVariable Token
  | .leaf kind text => ⟨.leaf kind text, none⟩
  | .node kind children =>
    match kind with
    | .identifier quote | .literal quote =>
      match expandWithin env quote children with
      | .ok parts => ⟨.node kind parts, none⟩
      | .error unset => ⟨.node kind children, some unset⟩
    | _ =>
      let parts := resolveAll env children
      ⟨.node kind parts.result, parts.error⟩

/-- Trees in order, with the references in their literals and identifiers expanded. -/
def resolveAll (env : Environment) : List Token → Progress UnsetVariable (List Token)
  | [] => ⟨[], none⟩
  | token :: tokens =>
    let first := resolve env token
    match first.error with
    | some unset => ⟨first.result :: tokens, some unset⟩
    | none =>
      let others := resolveAll env tokens
      ⟨first.result :: others.result, others.error⟩

end

/-- The source text of trees with their references expanded. -/
def resolvedText (env : Environment) (tokens : List Token) : Except UnsetVariable Text :=
  (resolveAll env tokens).toExcept.map renderAll

end Token

/-- The identifier with its references expanded. -/
def Identifier.resolve (i : Identifier) (env : Environment) : Except UnsetVariable Identifier := do
  let children ← Token.expandWithin env i.quote i.children
  return { i with children }

/-- The literal with its references expanded. -/
def Literal.resolve (l : Literal) (env : Environment) : Except UnsetVariable Literal := do
  let children ← Token.expandWithin env l.quote l.children
  return { l with children }

end DockerfileSyntax
