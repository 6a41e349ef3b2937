import DockerfileSyntax.Expansion

/-!
# Walks

A walk meets every token before its parts, from left to right. `preorder` lists the tokens that it
meets. A walk that edits may replace a token before it enters its parts, may leave the parts alone,
and may stop; what it has changed by then stays changed.
-/

namespace DockerfileSyntax

namespace Token

mutual

/-- A tree and all trees below it, each before its parts. -/
def preorder : Token → List Token
  | .leaf kind text => [.leaf kind text]
  | .node kind children => .node kind children :: preorderAll children

/-- The trees of a list and all trees below them, each before its parts. -/
def preorderAll : List Token → List Token
  | [] => []
  | token :: tokens => preorder token ++ preorderAll tokens

end

mutual

/-- The number of levels of a tree. -/
def depth : Token → Nat
  | .leaf _ _ => 1
  | .node _ children => depthAll children + 1

/-- The greatest number of levels of a tree in the list. -/
def depthAll : List Token → Nat
  | [] => 0
  | token :: tokens => max (depth token) (depthAll tokens)

end

end Token

/-- What a walk does once it has edited a token. -/
inductive Next (ε : Type) where
  /-- it goes on with the parts of the token -/
  | enter
  /-- it leaves the parts alone -/
  | skip
  /-- it ends -/
  | stop (error : ε)

/-- What a walk does to a token that it meets. -/
abbrev Visitor (ε : Type) := Token → Token × Next ε

/-- What a walk leaves behind: the edited trees, the tokens it met as they were then, and the error
that ended it, if one did. -/
structure Walk (ε : Type) where
  tokens : List Token
  met : List Token
  error : Option ε

namespace Walk

variable {ε : Type}

/-- One walk after another. Once the first has stopped, the other tokens stay as they are. -/
def andThen (first : Walk ε) (unwalked : List Token) (second : Walk ε) : Walk ε :=
  match first.error with
  | some _ => ⟨first.tokens ++ unwalked, first.met, first.error⟩
  | none => ⟨first.tokens ++ second.tokens, first.met ++ second.met, second.error⟩

/-- The walk through one token, given the walk through its parts. -/
def token (visit : Visitor ε) (parts : List Token → Walk ε) (t : Token) : Walk ε :=
  match visit t with
  | (edited, .stop error) => ⟨[edited], [t], some error⟩
  | (edited, .skip) => ⟨[edited], [t], none⟩
  | (.leaf kind text, .enter) => ⟨[.leaf kind text], [t], none⟩
  | (.node kind children, .enter) =>
    let below := parts children
    ⟨[.node kind below.tokens], t :: below.met, below.error⟩

/-- The walk through a list of tokens, given the walk through their parts. -/
def list (visit : Visitor ε) (parts : List Token → Walk ε) : List Token → Walk ε
  | [] => ⟨[], [], none⟩
  | t :: ts => (token visit parts t).andThen ts (list visit parts ts)

/-- The walk through trees that enters at most this many levels below the uppermost one. A visitor
that puts no deeper trees in the place of others needs no more levels than the trees have. -/
def run (visit : Visitor ε) : Nat → List Token → Walk ε
  | 0 => list visit fun below => ⟨below, [], none⟩
  | levels + 1 => list visit (run visit levels)

end Walk

end DockerfileSyntax
