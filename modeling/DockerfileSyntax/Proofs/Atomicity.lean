import DockerfileSyntax.Arg
import DockerfileSyntax.Owner
import DockerfileSyntax.Proofs.Lossless
import DockerfileSyntax.StartPeriod

/-!
# Edits that fail

An edit keeps whatever it has changed by the time it fails, and so it leaves a value alone only if
it does all its checks first. Every edit of this library does: `Edit.IsAtomicAt` is closed under the
ways in which edits are put together, and `Setter.unchanged_of_refused` says it of all setters.
-/

namespace DockerfileSyntax

namespace Edit

variable {σ τ α : Type}

/-- At this value the edit is done, or it fails and changes nothing. -/
def IsAtomicAt (e : Edit σ Unit) (s : σ) : Prop :=
  (apply e s).error ≠ none → (apply e s).result = s

theorem isAtomicAt_of_ok {e : Edit σ Unit} {s after : σ} (h : e s = .ok () after) :
    e.IsAtomicAt s := by
  rw [IsAtomicAt, apply_of_ok h]
  exact fun failed => absurd rfl failed

theorem isAtomicAt_modify (f : σ → σ) (s : σ) : IsAtomicAt (modify f) s :=
  isAtomicAt_of_ok rfl

theorem isAtomicAt_set (after s : σ) : IsAtomicAt (set after) s :=
  isAtomicAt_of_ok rfl

theorem isAtomicAt_throw (error : Error) (s : σ) : IsAtomicAt (throw error) s :=
  fun _ => rfl

/-- Reading the value is no change. -/
theorem IsAtomicAt.get {f : σ → Edit σ Unit} {s : σ} (h : (f s).IsAtomicAt s) :
    IsAtomicAt (get >>= f) s := h

/-- A check before an atomic edit keeps it atomic. -/
theorem IsAtomicAt.check {f : α → Edit σ Unit} {s : σ} (h : ∀ a, (f a).IsAtomicAt s)
    (check : Except Error α) : IsAtomicAt ((check : Edit σ α) >>= f) s := by
  cases check with
  | ok a => exact h a
  | error error => exact isAtomicAt_throw error s

/-- An edit of a part is atomic where that of the part is. -/
theorem IsAtomicAt.within {e : Edit τ Unit} {part : τ} (h : e.IsAtomicAt part) {store : τ → σ}
    {s : σ} (stored : store part = s) : IsAtomicAt (within part store e) s := by
  rw [IsAtomicAt, apply_within]
  intro failed
  exact (congrArg store (h failed)).trans stored

end Edit

open Edit

/-! ## Tokens -/

theorem Keyword.isAtomicAt_setText (value : Text) (k : Keyword) : (setText value).IsAtomicAt k := by
  refine .check (fun _ => ?_) _
  split
  · exact isAtomicAt_throw _ k
  · exact isAtomicAt_set _ k

theorem Identifier.isAtomicAt_setText (escape : Char) (value : Text) (i : Identifier) :
    (setText escape value).IsAtomicAt i :=
  .check (fun _ => .get <| .check (fun _ => isAtomicAt_set _ i) _) _

theorem Literal.isAtomicAt_setContent (field : EditField) (escape : Char) (excluded : List Char)
    (allowEmpty : Bool) (value : Text) (l : Literal) :
    (setContent field escape excluded allowEmpty value).IsAtomicAt l :=
  .get <| .check (fun _ => isAtomicAt_set _ l) _

theorem Reference.isAtomicAt_setName (name : Text) (r : Reference) :
    (setName name).IsAtomicAt r := by
  refine .check (fun _ => ?_) _
  split
  · exact isAtomicAt_modify _ r
  · exact isAtomicAt_throw _ r

theorem ValueKind.isAtomicAt_setText (kind : ValueKind) (escape : Char) (text : Text)
    (token : kind.Carrier) : (kind.setText escape text).IsAtomicAt token := by
  cases kind with
  | keyword => exact Keyword.isAtomicAt_setText text token
  | identifier => exact Identifier.isAtomicAt_setText escape text token
  | literal => exact Literal.isAtomicAt_setContent .value escape [] false text token

/-! ## Instructions -/

theorem Heading.isAtomicAt_setName (name : Text) (h : Heading) : (setName name).IsAtomicAt h := by
  refine .check (fun _ => ?_) _
  exact .get <| (Keyword.isAtomicAt_setText name.toUpperCase h.keyword).within rfl

theorem Instruction.isAtomicAt_setName (name : Text) (i : Instruction) :
    (setName name).IsAtomicAt i :=
  .get <| (Heading.isAtomicAt_setName name i.heading).within rfl

theorem Instruction.isAtomicAt_resolve (env : Environment) (i : Instruction) :
    (resolve env).IsAtomicAt i :=
  .get <| .check (fun _ => isAtomicAt_set _ i)
    ((Token.resolveAll env i.arguments).toExcept.mapError .unset)

namespace Arg

theorem isAtomicAt_setArgName (name : Text) (a : Arg) : (setArgName name).IsAtomicAt a := by
  refine .check (fun _ => .get <| .check (fun found => ?_) _) _
  split
  · exact isAtomicAt_throw _ a
  · exact isAtomicAt_set _ a

theorem isAtomicAt_setArgValue (value : Option Text) (a : Arg) :
    (setArgValue value).IsAtomicAt a := by
  cases value with
  | none => exact isAtomicAt_modify _ a
  | some text =>
    obtain ⟨heading, name, old, trail, escape⟩ := a
    cases old with
    | some old => exact (Literal.isAtomicAt_setContent .argValue escape [] true text old).within rfl
    | none => exact .check (fun _ => isAtomicAt_set _ _) _

theorem isAtomicAt_setInstructionName (name : Text) (a : Arg) :
    (setInstructionName name).IsAtomicAt a :=
  .get <| (Heading.isAtomicAt_setName name a.heading).within rfl

/-- The name is resolved before the value, and nothing is stored before both are. -/
theorem isAtomicAt_resolve (env : Environment) (a : Arg) : (resolve env).IsAtomicAt a := by
  obtain ⟨heading, name, value, trail, escape⟩ := a
  refine .get <| .check (fun name => ?_) ((name.resolve env).mapError .unset)
  cases value with
  | none => exact isAtomicAt_set _ _
  | some l =>
    dsimp only [Option.mapM]
    cases l.resolve env with
    | ok l' => exact isAtomicAt_of_ok rfl
    | error unset => exact isAtomicAt_throw (.unset unset) _

end Arg

/-! ## Owners -/

namespace Owner

theorem isAtomicAt_setUserLiteral (user : Literal) (o : Owner) :
    (setUserLiteral user).IsAtomicAt o :=
  .get <| .check (fun _ => isAtomicAt_modify _ o) _

theorem isAtomicAt_setGroupLiteral (group : Option Literal) (o : Owner) :
    (setGroupLiteral group).IsAtomicAt o := by
  cases group with
  | none => exact isAtomicAt_modify _ o
  | some group => exact .get <| .check (fun _ => isAtomicAt_modify _ o) _

theorem isAtomicAt_setUser (value : Text) (o : Owner) : (setUser value).IsAtomicAt o :=
  .get <| (Literal.isAtomicAt_setContent .user o.escape [':'] false value o.user).within rfl

/-- A new group is edited before it has a place among the tokens, and the colon is stored together
with it. -/
theorem isAtomicAt_setGroup (value : Option Text) (o : Owner) : (setGroup value).IsAtomicAt o := by
  obtain ⟨user, breaks, old, escape⟩ := o
  rcases value with _ | ⟨_ | ⟨c, value⟩⟩
  · exact isAtomicAt_modify _ _
  · exact isAtomicAt_modify _ _
  · rcases old with _ | ⟨after, old⟩
    · exact .check (fun group => isAtomicAt_setGroupLiteral (some group) _) _
    · exact (Literal.isAtomicAt_setContent .group escape [':'] false (c :: value) old).within rfl

end Owner

/-! ## Keys and values -/

namespace KeyValue

variable {K V : ValueKind}

theorem isAtomicAt_setKey (text : Text) (p : KeyValue K V) : (setKey text).IsAtomicAt p :=
  .get <| (K.isAtomicAt_setText p.escape text p.keyToken).within rfl

theorem isAtomicAt_setValue (value : Option Text) (p : KeyValue K V) :
    (setValue value).IsAtomicAt p := by
  cases value with
  | none => exact isAtomicAt_modify _ p
  | some text =>
    obtain ⟨isFlag, keyToken, assigned, escape⟩ := p
    rcases assigned with _ | ⟨between, old⟩
    · exact .check (fun _ => isAtomicAt_set _ _) _
    · exact (V.isAtomicAt_setText escape text old).within rfl

end KeyValue

/-! ## All setters -/

/-- The edits of tokens, instructions, declarations, owners and pairs, a start period among the
pairs. -/
inductive Setter : Type → Type where
  | keyword (value : Text) : Setter Keyword
  | identifier (escape : Char) (value : Text) : Setter Identifier
  | literal (escape : Char) (value : Text) : Setter Literal
  | referenceName (name : Text) : Setter Reference
  | instructionName (name : Text) : Setter Instruction
  | resolve (env : Environment) : Setter Instruction
  | argName (name : Text) : Setter Arg
  | argValue (value : Option Text) : Setter Arg
  | argInstructionName (name : Text) : Setter Arg
  | resolveArg (env : Environment) : Setter Arg
  | user (name : Text) : Setter Owner
  | group (name : Option Text) : Setter Owner
  | userLiteral (part : Literal) : Setter Owner
  | groupLiteral (part : Option Literal) : Setter Owner
  | pairKey {K V : ValueKind} (key : Text) : Setter (KeyValue K V)
  | pairValue {K V : ValueKind} (value : Option Text) : Setter (KeyValue K V)

/-- What the setter does. -/
def Setter.run {σ : Type} : Setter σ → Edit σ Unit
  | .keyword value => Keyword.setText value
  | .identifier escape value => Identifier.setText escape value
  | .literal escape value => Literal.setText escape value
  | .referenceName name => Reference.setName name
  | .instructionName name => Instruction.setName name
  | .resolve env => Instruction.resolve env
  | .argName name => Arg.setArgName name
  | .argValue value => Arg.setArgValue value
  | .argInstructionName name => Arg.setInstructionName name
  | .resolveArg env => Arg.resolve env
  | .user name => Owner.setUser name
  | .group name => Owner.setGroup name
  | .userLiteral part => Owner.setUserLiteral part
  | .groupLiteral part => Owner.setGroupLiteral part
  | .pairKey key => KeyValue.setKey key
  | .pairValue value => KeyValue.setValue value

theorem Setter.isAtomicAt {σ : Type} (setter : Setter σ) (s : σ) : setter.run.IsAtomicAt s := by
  cases setter with
  | keyword value => exact Keyword.isAtomicAt_setText value s
  | identifier escape value => exact Identifier.isAtomicAt_setText escape value s
  | literal escape value => exact Literal.isAtomicAt_setContent .literal escape [] true value s
  | referenceName name => exact Reference.isAtomicAt_setName name s
  | instructionName name => exact Instruction.isAtomicAt_setName name s
  | resolve env => exact Instruction.isAtomicAt_resolve env s
  | argName name => exact Arg.isAtomicAt_setArgName name s
  | argValue value => exact Arg.isAtomicAt_setArgValue value s
  | argInstructionName name => exact Arg.isAtomicAt_setInstructionName name s
  | resolveArg env => exact Arg.isAtomicAt_resolve env s
  | user name => exact Owner.isAtomicAt_setUser name s
  | group name => exact Owner.isAtomicAt_setGroup name s
  | userLiteral part => exact Owner.isAtomicAt_setUserLiteral part s
  | groupLiteral part => exact Owner.isAtomicAt_setGroupLiteral part s
  | pairKey key => exact KeyValue.isAtomicAt_setKey key s
  | pairValue value => exact KeyValue.isAtomicAt_setValue value s

/-- A setter that fails leaves the value as it is, with all its tokens. -/
theorem Setter.unchanged_of_refused {σ : Type} (setter : Setter σ) (s : σ)
    (refused : (Edit.apply setter.run s).error ≠ none) : (Edit.apply setter.run s).result = s :=
  setter.isAtomicAt s refused

/-- A value with white space needs quotes, and it is refused if it holds one itself. Of two
references the first can be expanded, but the second one requires a variable that is not set. Either
way `ARG x=$A${B?}` stays what it is. -/
theorem Setter.unchanged_of_refused_samples :
    ∃ a, Arg.parse '\\' "ARG x=$A$\x7bB?\x7d".toList = .ok a ∧
      (Edit.apply (Setter.argValue (some ['a', ' ', '"'])).run a).error ≠ none ∧
      (Edit.apply (Setter.argValue (some ['a', ' ', '"'])).run a).result = a ∧
      (Edit.apply (Setter.resolveArg fun _ => none).run a).error ≠ none ∧
      (Edit.apply (Setter.resolveArg fun _ => none).run a).result = a := by
  have failures : (Arg.parse '\\' "ARG x=$A$\x7bB?\x7d".toList).toOption.map (fun a =>
      ((Edit.apply (Setter.argValue (some ['a', ' ', '"'])).run a).error.isSome,
        (Edit.apply (Setter.resolveArg fun _ => none).run a).error.isSome)) =
      some (true, true) := by
    decide +kernel
  obtain ⟨a, h, failures⟩ := exists_of_computed failures
  obtain ⟨first, second⟩ := Prod.mk.inj failures
  have refused := Option.isSome_iff_ne_none.mp first
  have unset := Option.isSome_iff_ne_none.mp second
  exact ⟨a, h, refused, Setter.unchanged_of_refused _ a refused, unset,
    Setter.unchanged_of_refused _ a unset⟩

end DockerfileSyntax
