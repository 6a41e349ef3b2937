import DockerfileSyntax.Edit.Value
import DockerfileSyntax.Token.Walk

/-!
# Patches

Edits of a tree as data. A patch selects tokens by their kind and perhaps by their text; the first
patch that selects a token decides what happens to it.
-/

namespace DockerfileSyntax

/-- A change to the tokens of one kind. -/
structure Patch where
  kind : Text
  /-- the source text of the tokens; `none` for any -/
  text : Option Text
  /-- the words with which the walk is stopped -/
  failure : Option Text
  replacement : Option Token
  /-- the quote that a literal gets; `none` to leave it -/
  quote : Option (Option Quote)
  /-- the name that a reference gets -/
  name : Option Text
  /-- whether the parts are left alone -/
  skip : Bool

namespace Patch

/-- Whether the patch is for this token. -/
def selects (p : Patch) (t : Token) : Bool :=
  t.kindName == p.kind && p.text.all (· == t.render)

/-- The token in another quote, if it is a literal. -/
def requote (quote : Option Quote) : Token → Token
  | .literal _ children => .literal quote children
  | token => token

/-- Renames a token if it is a reference. -/
def rename (name : Text) : Edit Token Unit := do
  match ← get with
  | .reference braced children =>
    Edit.within ⟨braced, children⟩ Reference.toToken (Reference.setName name)
  | _ => return ()

/-- The token changed by the patch: replaced, put into another quote and renamed, in this order. -/
def apply (p : Patch) (t : Token) : Token × Next Text :=
  match p.failure with
  | some words => (t, .stop words)
  | none =>
    let replaced := p.replacement.getD t
    let quoted := (p.quote.map fun quote => requote quote replaced).getD replaced
    match p.name with
    | none => (quoted, if p.skip then .skip else .enter)
    | some name =>
      let renamed := Edit.apply (rename name) quoted
      (renamed.result, match renamed.error with
        | none => if p.skip then .skip else .enter
        | some error => .stop error.message)

/-- The visitor that applies the first patch for each token. -/
def visitor (patches : List Patch) : Visitor Text := fun t =>
  match patches.find? (·.selects t) with
  | some found => found.apply t
  | none => (t, .enter)

/-- The number of levels that the patches may add, if no patch is to apply below its own
replacement. -/
def addedLevels : List Patch → Nat
  | [] => 0
  | p :: patches => (p.replacement.map Token.depth).getD 0 + 1 + addedLevels patches

end Patch

/-- The walk that applies the patches to trees. -/
def patch (patches : List Patch) (tokens : List Token) : Walk Text :=
  Walk.run (Patch.visitor patches) (Token.depthAll tokens + Patch.addedLevels patches) tokens

end DockerfileSyntax
