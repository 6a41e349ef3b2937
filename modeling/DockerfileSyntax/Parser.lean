import DockerfileSyntax.Source.Cursor

/-!
# Parsers

A parser moves a cursor and either succeeds or fails. It never goes back on its own: `attempt` does
that, and everything that tries and goes on is made of it. The record of the furthest failure
survives going back.
-/

namespace DockerfileSyntax

/-- A computation that reads a text through a cursor. A failure leaves the cursor where it arose. -/
abbrev Parser := EStateM Failure Cursor

namespace Parser

variable {α : Type}

/-- Fails for want of `what` at the cursor, and records it. -/
def fail (what : Expectation) : Parser α := fun c =>
  .error (c.failure what) (c.record (c.failure what))

/-- The character under the cursor. -/
def peek : Parser (Option Char) := fun c => .ok c.peek c

/-- Runs `p`, and goes back if it fails. -/
def attempt (p : Parser α) : Parser α := fun c =>
  match p c with
  | .ok a d => .ok a d
  | .error f d => .error f (d.goTo c.toPlace)

/-- Runs `p`, and goes back if it fails; a failure is no failure. -/
def optional (p : Parser α) : Parser (Option α) := fun c =>
  match attempt p c with
  | .ok a d => .ok (some a) d
  | .error _ d => .ok none d

/-- Whether `p` would succeed here. Nothing is read. -/
def sees (p : Parser α) : Parser Bool := fun c =>
  match p c with
  | .ok _ d => .ok true (d.goTo c.toPlace)
  | .error _ d => .ok false (d.goTo c.toPlace)

/-- What `p` reads again and again, until it fails or stands still. -/
def repeatFrom (p : Parser α) (c : Cursor) : List α × Cursor :=
  match attempt p c with
  | .error _ d => ([], d)
  | .ok a d =>
    if d.left < c.left then (repeatFrom p d).map (a :: ·) id else ([], d)
termination_by c.left

/-- Runs `p` until it fails or stands still. Never fails. -/
def many (p : Parser α) : Parser (List α) := fun c =>
  match repeatFrom p c with
  | (items, d) => .ok items d

/-- Runs `p` once, and then until it fails or stands still. -/
def many1 (p : Parser α) : Parser (List α) := do
  let first ← attempt p
  let others ← many p
  return first :: others

/-- The first alternative that succeeds; if none does, the failure of the last one. -/
def firstOf : List (Parser α) → Parser α
  | [] => fail .alternative
  | [p] => attempt p
  | p :: q :: ps => fun c =>
    match attempt p c with
    | .ok a d => .ok a d
    | .error _ d => firstOf (q :: ps) d

/-- Succeeds only where nothing is left. -/
def endOfInput : Parser Unit := fun c =>
  match c.rest with
  | [] => .ok () c
  | found :: _ =>
    let failure : Failure := ⟨.trailing found, c.position⟩
    .error failure (c.record failure)

/-- Reads one character of a class. -/
def satisfy (what : Expectation) (holds : Char → Bool) : Parser Char := fun c =>
  match c.rest with
  | [] => fail what c
  | found :: _ => if holds found then .ok found (c.pass [found]) else fail what c

/-- Reads the longest run of characters of a class. Never fails. -/
def takeWhile (holds : Char → Bool) : Parser Text := fun c =>
  .ok (c.rest.takeWhile holds) (c.skipWhile holds)

/-- Reads exactly this text. -/
def eat (text : Text) : Parser Unit := fun c =>
  if text.isPrefixOf c.rest then .ok () (c.pass text) else fail (.exactly text) c

/-- Reads the first option whose spelling stands here. -/
def choose (what : Expectation) (spelling : α → Text) (options : List α) : Parser α := fun c =>
  match options.find? fun option => (spelling option).isPrefixOf c.rest with
  | some option => .ok option (c.pass (spelling option))
  | none => fail what c

/-- Reads the whole of a text. The failure reported is the one recorded furthest into it. -/
def complete (p : Parser α) (text : Text) : Except Failure α :=
  match (do let a ← p; endOfInput; return a : Parser α) (.start text) with
  | .ok a _ => .ok a
  | .error failure c => .error (c.furthest.getD failure)

end Parser

end DockerfileSyntax
