import DockerfileSyntax.Expansion
import DockerfileSyntax.Source.Failure

/-!
# Errors

Why a text cannot be read, a value cannot be stored or a variable cannot be expanded. The causes are
data; the words for them are in `message`.
-/

namespace DockerfileSyntax

/-- What an edit sets or a factory is given. -/
inductive EditField where
  | keyword | identifier | literal | value | variableName
  | instructionName | argName | argValue | user | group | startPeriod | key
deriving DecidableEq

/-- The words for a field. -/
def EditField.name : EditField → Text
  | keyword => "keyword".toList
  | identifier => "identifier".toList
  | literal => "literal".toList
  | value => "value".toList
  | variableName => "variable name".toList
  | instructionName => "instruction name".toList
  | argName => "arg name".toList
  | argValue => "arg value".toList
  | user => "user".toList
  | group => "group".toList
  | startPeriod => "start period".toList
  | key => "key".toList

/-- Why a field cannot hold a value. -/
inductive Refusal where
  /-- the value is empty -/
  | empty
  /-- the value holds a character that no keyword has -/
  | notInKeyword (char : Char)
  /-- the value does not match the grammar of the field -/
  | unreadable (value : Text) (failure : Failure)
  /-- the value is no name, for this reason -/
  | malformed (failure : Failure)
  /-- the value is no variable name -/
  | notVariableName (name : Text)
  /-- the value is a name in quotes -/
  | quotedName (name : Text)

/-- The words for a refusal. -/
def Refusal.message : Refusal → Text
  | empty => "value must not be empty".toList
  | notInKeyword char => quoteChar char ++ " is not allowed in a keyword".toList
  | unreadable value failure => quoteText value ++ " does not parse: ".toList ++ failure.message
  | malformed failure => failure.message
  | notVariableName name => '\'' :: name ++ "' is not a valid variable name".toList
  | quotedName name => '\'' :: name ++ "' must not include quotes".toList

/-- Why tokens do not make up a key with an optional value, an instruction or a declaration. -/
inductive ShapeFault where
  | noKey
  /-- the key is this token, and another kind of token is wanted -/
  | wrongKey (found : Token) (wanted : Text)
  | badEnding
  | noKeyword
  | noName
  /-- no equals sign stands before the value -/
  | noEquals

/-- The words for a fault of shape. -/
def ShapeFault.message : ShapeFault → Text
  | noKey => "key/value token has no key".toList
  | wrongKey found wanted =>
      "key/value token key is a ".toList ++ found.kindName ++ ", not a ".toList ++ wanted
  | badEnding => "key/value token must end with a separator and a value".toList
  | noKeyword => "instruction has no keyword".toList
  | noName => "ARG without a name".toList
  | noEquals => "ARG value without '='".toList

/-- What can go wrong in reading, editing and expanding. -/
inductive Error where
  /-- a text does not match its grammar -/
  | parse (failure : Failure)
  /-- a field cannot hold a value -/
  | invalid (field : EditField) (refusal : Refusal)
  /-- tokens do not have the shape of what they should make up -/
  | shape (fault : ShapeFault)
  /-- a required variable is not set -/
  | unset (what : UnsetVariable)

/-- The words for an error. -/
def Error.message : Error → Text
  | parse failure => failure.message
  | invalid field refusal => "invalid ".toList ++ field.name ++ [':', ' '] ++ refusal.message
  | shape fault => "structural inconsistency: ".toList ++ fault.message
  | unset what =>
      "variable ".toList ++ what.name ++ " is not set: ".toList ++ what.detail

/-- An unset variable is an error. -/
instance : MonadLift (Except UnsetVariable) (Except Error) where
  monadLift := Except.mapError .unset

/-- Checks that a value is not empty. -/
def requireNonEmpty (field : EditField) (value : Text) : Except Error Unit :=
  if value.isEmpty then .error (.invalid field .empty) else .ok ()

theorem requireNonEmpty_cases (field : EditField) (value : Text) :
    (value ≠ [] ∧ requireNonEmpty field value = .ok ()) ∨
      requireNonEmpty field value = .error (.invalid field .empty) := by
  cases value with
  | nil => exact .inr rfl
  | cons c value => exact .inl ⟨List.cons_ne_nil c value, rfl⟩

end DockerfileSyntax
