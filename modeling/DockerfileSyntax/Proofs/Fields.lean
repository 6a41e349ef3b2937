import DockerfileSyntax.Proofs.Arg.OnTokens
import DockerfileSyntax.Proofs.Identifiers.Values
import DockerfileSyntax.Proofs.KeyValue.OnTokens
import DockerfileSyntax.Proofs.Owner.OnTokens

/-!
# Setters of fields

A declaration, an owner and a pair each have a few fields with a setter. A setter looks at its own
field and at the escape character, which no setter changes, and what it stores in the field makes it
store the same again.

1. `Edit.commute_of_mirrors`: edits of two different parts of a value commute.
2. `Edit.Repeats.image`, `Edit.repeats_orAdd`: an edit repeats if the edit of the part does, also
   where the part may be missing.
3. `FieldSetter.commute_and_repeat`: setters of different fields commute and every setter repeats,
   on records and on lists of tokens.
-/

namespace DockerfileSyntax

open Grammar DockerfileSyntax.Parser

/-! ## Edits that commute and edits that repeat -/

namespace Edit

variable {σ τ ρ δ α : Type} {e e' : Edit σ Unit} {s : σ}

/-- In either order both edits end as they do when they come first, and the same value is left. -/
structure Commute (e e' : Edit σ Unit) (s : σ) : Prop where
  first : (apply e (apply e' s).result).error = (apply e s).error
  second : (apply e' (apply e s).result).error = (apply e' s).error
  result : (apply e' (apply e s).result).result = (apply e (apply e' s).result).result

/-- Once the edit has been done, it can be done again and changes nothing. -/
def Repeats (e : Edit σ Unit) (s : σ) : Prop :=
  ∀ after, apply e s = ⟨after, none⟩ → apply e after = ⟨after, none⟩

theorem Commute.symm (h : Commute e e' s) : Commute e' e s := ⟨h.second, h.first, h.result.symm⟩

/-- Edits of two parts commute: `f` makes the value of the parts, and each edit does to its part
what it does whatever the other part is. -/
theorem commute_of_mirrors {f : τ → ρ → σ} {p : Edit τ Unit} {q : Edit ρ Unit}
    (onFirst : ∀ t u, Mirrors (f · u) t e p) (onSecond : ∀ t u, Mirrors (f t) u e' q)
    (t : τ) (u : ρ) : Commute e e' (f t u) := by
  have left (t : τ) (u : ρ) :
      apply e (f t u) = ⟨f (apply p t).result u, (apply p t).error⟩ := onFirst t u
  have right (t : τ) (u : ρ) :
      apply e' (f t u) = ⟨f t (apply q u).result, (apply q u).error⟩ := onSecond t u
  constructor <;> simp only [left, right]

/-- What commutes on values commutes on their images, as far as an invariant holds that the edits
need and keep. -/
theorem Commute.image {f : σ → τ} {d d' : Edit τ Unit} {Inv : σ → Prop}
    (mirrors : ∀ s, Inv s → Mirrors f s d e) (mirrors' : ∀ s, Inv s → Mirrors f s d' e')
    (kept : Inv (apply e s).result) (kept' : Inv (apply e' s).result) (h : Inv s)
    (commute : Commute e e' s) : Commute d d' (f s) := by
  have first := mirrors s h
  have second := mirrors' s h
  have both := mirrors' _ kept
  have both' := mirrors _ kept'
  rw [Mirrors] at first second both both'
  constructor
  · rw [first, second, both', commute.first]
  · rw [first, second, both, commute.second]
  · rw [first, second, both, both', commute.result]

theorem Repeats.image {f : σ → τ} {d : Edit τ Unit} (mirrors : Mirrors f s d e)
    (mirrors' : Mirrors f (apply e s).result d e) (h : e.Repeats s) : d.Repeats (f s) := by
  intro after done
  rw [Mirrors] at mirrors mirrors'
  rw [mirrors, Progress.mk.injEq] at done
  obtain ⟨rfl, accepted⟩ := done
  have again := h (apply e s).result (by rw [← accepted])
  rw [mirrors', again]

theorem repeats_set (stored : σ) : Repeats (set stored) s := by
  intro after done
  cases done
  rfl

theorem repeats_modify {f : σ → σ} (same : f (f s) = f s) : Repeats (modify f) s := by
  intro after done
  cases done
  show (⟨f (f s), none⟩ : Progress Error σ) = ⟨f s, none⟩
  rw [same]

theorem repeats_throw (error : Error) : Repeats (throw error) s := nofun

theorem apply_check_bind (check : Except Error α) (f : α → Edit σ Unit) (s : σ) :
    apply ((check : Edit σ α) >>= f) s =
      match check with
      | .ok a => apply (f a) s
      | .error error => ⟨s, some error⟩ := by
  cases check <;> rfl

theorem Repeats.check {f : α → Edit σ Unit} (h : ∀ a, (f a).Repeats s) (check : Except Error α) :
    Repeats ((check : Edit σ α) >>= f) s := by
  intro after done
  rw [apply_check_bind] at done ⊢
  cases check with
  | error error => cases done
  | ok a => exact h a after done

theorem edited_eq_ok {after : σ} : edited e s = .ok after ↔ apply e s = ⟨after, none⟩ := by
  rw [edited, Progress.toExcept]
  obtain ⟨result, _ | error⟩ := apply e s <;> simp

/-- Edits the part in an optional place, or makes a part and puts it there behind what `before`
says, if it passes a check. -/
def orAdd (before : δ) (new : τ) (check : τ → Except Error Unit) (edit : Edit τ Unit) :
    Edit (Option (δ × τ)) Unit := do
  match ← get with
  | some (before, part) => within part (fun part => some (before, part)) edit
  | none =>
    let part ← edited edit new
    check part
    set (some (before, part))

section Places

variable {before : δ} {new : τ} {check : τ → Except Error Unit} {edit : Edit τ Unit}

theorem apply_orAdd_some (before' : δ) (part : τ) :
    apply (orAdd before new check edit) (some (before', part)) =
      ⟨some (before', (apply edit part).result), (apply edit part).error⟩ :=
  apply_within part (fun part => some (before', part)) edit (some (before', part))

theorem apply_orAdd_none :
    apply (orAdd before new check edit) none =
      match edited edit new with
      | .ok part => apply ((check part : Edit (Option (δ × τ)) Unit) >>= fun _ =>
          set (some (before, part))) none
      | .error error => ⟨none, some error⟩ :=
  apply_check_bind (edited edit new) _ none

/-- What is added is the new part, edited. -/
theorem exists_of_orAdd {after : Option (δ × τ)}
    (done : apply (orAdd before new check edit) none = ⟨after, none⟩) :
    ∃ part, apply edit new = ⟨part, none⟩ ∧ after = some (before, part) := by
  rw [apply_orAdd_none] at done
  cases made : edited edit new with
  | error error =>
    rw [made] at done
    cases done
  | ok part =>
    rw [made] at done
    refine ⟨part, edited_eq_ok.mp made, ?_⟩
    dsimp only at done
    rw [apply_check_bind] at done
    cases checked : check part with
    | ok u =>
      rw [checked] at done
      exact (congrArg Progress.result done).symm
    | error error =>
      rw [checked] at done
      cases done

/-- A part that has been added is the one that is edited from then on. -/
theorem repeats_orAdd (h : ∀ part, edit.Repeats part) (place : Option (δ × τ)) :
    (orAdd before new check edit).Repeats place := by
  intro after done
  rcases place with _ | ⟨before', part⟩
  · obtain ⟨part, made, rfl⟩ := exists_of_orAdd done
    rw [apply_orAdd_some, h new part made]
  · rw [apply_orAdd_some, Progress.mk.injEq] at done
    obtain ⟨rfl, accepted⟩ := done
    have again := h part (apply edit part).result (by rw [← accepted])
    rw [apply_orAdd_some, again]

end Places

end Edit

/-! ## Setting the text of a token -/

theorem Keyword.repeats_setText (text : Text) (k : Keyword) : (setText text).Repeats k := by
  refine .check (fun _ => ?_) _
  split
  · exact Edit.repeats_throw _
  · exact Edit.repeats_set _

/-- The quote decides how the text is read, and it stays. -/
theorem Identifier.repeats_setText (escape : Char) (text : Text) (i : Identifier) :
    (setText escape text).Repeats i := by
  intro after done
  cases text with
  | nil => exact absurd done (apply_setText_nil i after)
  | cons c text =>
    rw [apply_setText_iff (List.cons_ne_nil c text)] at done ⊢
    exact ⟨rfl, by rw [done.1]; exact done.2⟩

theorem Literal.quoteWith_quoteWith (l : Literal) (value : Text) (children : List Token) :
    quoteWith ⟨l.quoteWith value, children⟩ value = l.quoteWith value := by
  obtain ⟨quote, _⟩ := l
  cases quote with
  | some quote => rfl
  | none => simp [quoteWith]

/-- A quote that the text needs is not needed once more. -/
theorem Literal.repeats_setContent (field : EditField) (e : Char) (excluded : List Char)
    (allowEmpty : Bool) (value : Text) (l : Literal) :
    (setContent field e excluded allowEmpty value).Repeats l := by
  intro after done
  rw [apply_setContent] at done
  split at done
  · next children read =>
    cases done
    rw [apply_setContent, quoteWith_quoteWith, read]
  · cases done

theorem ValueKind.repeats_setText (kind : ValueKind) (escape : Char) (text : Text)
    (token : kind.Carrier) : (kind.setText escape text).Repeats token := by
  cases kind with
  | keyword => exact Keyword.repeats_setText text token
  | identifier => exact Identifier.repeats_setText escape text token
  | literal => exact Literal.repeats_setContent .value escape [] false text token

/-! ## Declarations -/

theorem Heading.repeats_setName (name : Text) (h : Heading) : (setName name).Repeats h := by
  refine .check (fun _ => ?_) _
  have stored (k : Keyword) : Edit.Mirrors (Heading.mk h.lead · h.gap) k
      (do
        let h ← get
        Edit.within h.keyword (fun keyword => { h with keyword })
          (Keyword.setText name.toUpperCase))
      (Keyword.setText name.toUpperCase) := .readImage <| Edit.apply_within _ _ _ _
  exact .image (stored _) (stored _) (Keyword.repeats_setText name.toUpperCase h.keyword)

namespace Arg

/-- Renames the argument: what this does to its name. -/
def nameEdit (escape : Char) (name : Text) : Edit Identifier Unit := do
  requireNonEmpty .argName name
  let found ← readAs (fun failure => .invalid .argName (.malformed failure))
    (Grammar.argName escape) name
  if found.quote.isSome then throw (.invalid .argName (.quotedName name))
  else modify fun i => { i with children := found.children }

/-- Sets the value: what this does to its place. -/
def valueEdit (escape : Char) : Option Text → Edit (Option (Unit × Literal)) Unit
  | none => modify fun _ => none
  | some text => Edit.orAdd () .empty (fun _ => .ok ())
      (Literal.setContent .argValue escape [] true text)

variable {heading : Heading} {name : Identifier} {value : Option (Unit × Literal)}
  {trail : List Trivia} {escape : Char}

/-- The declaration with these parts. -/
def ofParts (heading : Heading) (name : Identifier) (value : Option (Unit × Literal))
    (trail : List Trivia) (escape : Char) : Arg :=
  ⟨heading, name, value.map Prod.snd, trail, escape⟩

theorem exists_ofParts (a : Arg) :
    ∃ value, a = ofParts a.heading a.name value a.trail a.escape := by
  refine ⟨a.value.map (Prod.mk ()), ?_⟩
  obtain ⟨heading, name, value, trail, escape⟩ := a
  cases value <;> rfl

theorem mirrors_nameEdit (text : Text) :
    Edit.Mirrors (ofParts heading · value trail escape) name (setArgName text)
      (nameEdit escape text) := by
  refine .check (fun _ => .readImage <| .check (fun found => ?_) _) _
  split
  · exact Edit.mirrors_throw _ _ _
  · rfl

theorem mirrors_valueEdit (text : Option Text) :
    Edit.Mirrors (ofParts heading name · trail escape) value (setArgValue text)
      (valueEdit escape text) := by
  cases text with
  | none => rfl
  | some text =>
    refine .readImage <| .read ?_
    rcases value with _ | ⟨-, value⟩
    · refine .check (fun l => ?_) _
      rfl
    · exact Edit.mirrors_within _ fun l => rfl

theorem mirrors_headingEdit (text : Text) :
    Edit.Mirrors (ofParts · name value trail escape) heading (setInstructionName text)
      (Heading.setName text) :=
  .readImage <| Edit.apply_within _ _ _ _

theorem repeats_setArgName (text : Text) (a : Arg) : (setArgName text).Repeats a := by
  obtain ⟨value, same⟩ := exists_ofParts a
  rw [same]
  refine .image (f := (ofParts a.heading · value a.trail a.escape)) (mirrors_nameEdit text)
    (mirrors_nameEdit text) (.check (fun _ => .check (fun found => ?_) _) _)
  split
  · exact Edit.repeats_throw _
  · exact Edit.repeats_modify rfl

theorem repeats_setArgValue (text : Option Text) (a : Arg) : (setArgValue text).Repeats a := by
  obtain ⟨value, same⟩ := exists_ofParts a
  rw [same]
  refine .image (f := (ofParts a.heading a.name · a.trail a.escape)) (mirrors_valueEdit text)
    (mirrors_valueEdit text) ?_
  cases text with
  | none => exact Edit.repeats_modify rfl
  | some text => exact Edit.repeats_orAdd (Literal.repeats_setContent _ _ _ _ text) value

theorem repeats_setInstructionName (text : Text) (a : Arg) :
    (setInstructionName text).Repeats a := by
  obtain ⟨value, same⟩ := exists_ofParts a
  rw [same]
  exact .image (f := (ofParts · a.name value a.trail a.escape)) (mirrors_headingEdit text)
    (mirrors_headingEdit text) (Heading.repeats_setName text a.heading)

theorem commute_name_value (text : Text) (text' : Option Text) (a : Arg) :
    Edit.Commute (setArgName text) (setArgValue text') a := by
  obtain ⟨value, same⟩ := exists_ofParts a
  rw [same]
  exact Edit.commute_of_mirrors (f := (ofParts a.heading · · a.trail a.escape))
    (fun _ _ => mirrors_nameEdit text) (fun _ _ => mirrors_valueEdit text') _ _

theorem commute_name_heading (text text' : Text) (a : Arg) :
    Edit.Commute (setArgName text) (setInstructionName text') a := by
  obtain ⟨value, same⟩ := exists_ofParts a
  rw [same]
  exact Edit.commute_of_mirrors
    (f := fun name heading => ofParts heading name value a.trail a.escape)
    (fun _ _ => mirrors_nameEdit text) (fun _ _ => mirrors_headingEdit text') _ _

theorem commute_value_heading (text : Option Text) (text' : Text) (a : Arg) :
    Edit.Commute (setArgValue text) (setInstructionName text') a := by
  obtain ⟨value, same⟩ := exists_ofParts a
  rw [same]
  exact Edit.commute_of_mirrors
    (f := fun value heading => ofParts heading a.name value a.trail a.escape)
    (fun _ _ => mirrors_valueEdit text) (fun _ _ => mirrors_headingEdit text') _ _

end Arg

/-! ## Owners -/

namespace Owner

/-- Sets the group: what this does to its place. -/
def groupEdit (escape : Char) : Option Text → Edit (Option (List Continuation × Literal)) Unit
  | none | some [] => modify fun _ => none
  | some text => Edit.orAdd [] .empty (OnTokens.checkPart escape .group)
      (Literal.setContent .group escape [':'] false text)

variable {user : Literal} {breaks : List Continuation}
  {group : Option (List Continuation × Literal)} {escape : Char}

theorem mirrors_userEdit (text : Text) :
    Edit.Mirrors (Owner.mk · breaks group escape) user (setUser text)
      (Literal.setContent .user escape [':'] false text) :=
  .readImage <| Edit.apply_within _ _ _ _

theorem mirrors_groupEdit (text : Option Text) :
    Edit.Mirrors (Owner.mk user breaks · escape) group (setGroup text) (groupEdit escape text) := by
  rcases text with _ | _ | ⟨c, text⟩
  · rfl
  · rfl
  · refine .readImage <| .read ?_
    rcases group with _ | ⟨after, group⟩
    · refine .check (fun part => .readImage <| .check (fun _ => ?_) _) _
      rfl
    · exact Edit.mirrors_within _ fun part => rfl

theorem repeats_setUser (text : Text) (o : Owner) : (setUser text).Repeats o :=
  .image (mirrors_userEdit text) (mirrors_userEdit text)
    (Literal.repeats_setContent _ _ _ _ text o.user)

theorem repeats_setGroup (text : Option Text) (o : Owner) : (setGroup text).Repeats o := by
  refine .image (mirrors_groupEdit text) (mirrors_groupEdit text) ?_
  rcases text with _ | _ | ⟨c, text⟩
  · exact Edit.repeats_modify rfl
  · exact Edit.repeats_modify rfl
  · exact Edit.repeats_orAdd (Literal.repeats_setContent _ _ _ _ (c :: text)) o.group

theorem commute_user_group (text : Text) (text' : Option Text) (o : Owner) :
    Edit.Commute (setUser text) (setGroup text') o :=
  Edit.commute_of_mirrors (f := (Owner.mk · o.breaks · o.escape))
    (fun _ _ => mirrors_userEdit text) (fun _ _ => mirrors_groupEdit text')
    o.user o.group

end Owner

/-! ## Pairs -/

namespace KeyValue

variable {K V : ValueKind}

/-- Sets the value: what this does to its place. -/
def valueEdit (V : ValueKind) (escape : Char) :
    Option Text → Edit (Option (Separator × V.Carrier)) Unit
  | none => modify fun _ => none
  | some text => Edit.orAdd .equals (V.ofValue text) (fun _ => .ok ()) (V.setText escape text)

variable {isFlag : Bool} {keyToken : K.Carrier} {assigned : Option (Separator × V.Carrier)}
  {escape : Char}

theorem mirrors_keyEdit (text : Text) :
    Edit.Mirrors (KeyValue.mk (K := K) (V := V) isFlag · assigned escape) keyToken (setKey text)
      (K.setText escape text) :=
  .readImage <| Edit.apply_within _ _ _ _

theorem mirrors_valueEdit (text : Option Text) :
    Edit.Mirrors (KeyValue.mk (K := K) (V := V) isFlag keyToken · escape) assigned (setValue text)
      (valueEdit V escape text) := by
  cases text with
  | none => rfl
  | some text =>
    refine .readImage <| .read ?_
    rcases assigned with _ | ⟨between, value⟩
    · refine .check (fun value => ?_) _
      rfl
    · exact Edit.mirrors_within _ fun value => rfl

theorem repeats_setKey (text : Text) (p : KeyValue K V) : (setKey text).Repeats p :=
  .image (mirrors_keyEdit text) (mirrors_keyEdit text)
    (K.repeats_setText p.escape text p.keyToken)

theorem repeats_setValue (text : Option Text) (p : KeyValue K V) : (setValue text).Repeats p := by
  refine .image (mirrors_valueEdit text) (mirrors_valueEdit text) ?_
  cases text with
  | none => exact Edit.repeats_modify rfl
  | some text => exact Edit.repeats_orAdd (V.repeats_setText p.escape text) p.assigned

theorem commute_key_value (text : Text) (text' : Option Text) (p : KeyValue K V) :
    Edit.Commute (setKey text) (setValue text') p :=
  Edit.commute_of_mirrors (f := (KeyValue.mk p.isFlag · · p.escape))
    (fun _ _ => mirrors_keyEdit text) (fun _ _ => mirrors_valueEdit text')
    p.keyToken p.assigned

end KeyValue

/-! ## All fields -/

/-- What has fields with setters: a declaration, an owner, or a pair with tokens of two kinds. -/
inductive Subject where
  | declaration
  | owner
  | pair (K V : ValueKind)

namespace Subject

/-- The states of a subject. -/
@[reducible] def State : Subject → Type
  | declaration => Arg
  | owner => Owner
  | pair K V => KeyValue K V

/-- The tokens in a state. -/
def tokens : (subject : Subject) → subject.State → List Token
  | declaration, a => a.tokens
  | owner, o => o.tokens
  | pair _ _, p => p.tokens

/-- The escape character in a state. -/
def escape : (subject : Subject) → subject.State → Char
  | declaration, a => a.escape
  | owner, o => o.escape
  | pair _ _, p => p.escape

end Subject

/-- The setters of fields. -/
inductive FieldSetter : Subject → Type where
  | argName (text : Text) : FieldSetter .declaration
  | argValue (text : Option Text) : FieldSetter .declaration
  | instructionName (text : Text) : FieldSetter .declaration
  | user (text : Text) : FieldSetter .owner
  | group (text : Option Text) : FieldSetter .owner
  | key {K V : ValueKind} (text : Text) : FieldSetter (.pair K V)
  | value {K V : ValueKind} (text : Option Text) : FieldSetter (.pair K V)

namespace FieldSetter

variable {subject : Subject}

/-- The field that the setter sets. -/
def field : FieldSetter subject → EditField
  | argName _ => .argName
  | argValue _ => .argValue
  | instructionName _ => .instructionName
  | user _ => .user
  | group _ => .group
  | key _ => .key
  | value _ => .value

/-- What the setter does. -/
def run : FieldSetter subject → Edit subject.State Unit
  | argName text => Arg.setArgName text
  | argValue text => Arg.setArgValue text
  | instructionName text => Arg.setInstructionName text
  | user text => Owner.setUser text
  | group text => Owner.setGroup text
  | key text => KeyValue.setKey text
  | value text => KeyValue.setValue text

/-- What the setter does to a list of tokens, in which it has to find its field. -/
def onTokens (missing : Edit (List Token) Unit) (escape : Char) :
    FieldSetter subject → Edit (List Token) Unit
  | argName text => (Arg.Change.name text).onTokens escape
  | argValue text => (Arg.Change.value text).onTokens escape
  | instructionName text => (Arg.Change.instructionName text).onTokens escape
  | user text => (Owner.Change.set (.user text)).onTokens missing escape
  | group text => (Owner.Change.set (.group text)).onTokens missing escape
  | @key K V text => (KeyValue.Change.key (K := K) (V := V) text).onTokens missing escape
  | @value K V text => (KeyValue.Change.value (K := K) (V := V) text).onTokens missing escape

theorem mirrors (missing : Edit (List Token) Unit) (f : FieldSetter subject) (s : subject.State) :
    Edit.Mirrors subject.tokens s (f.onTokens missing (subject.escape s)) f.run := by
  cases f with
  | argName text => exact Arg.mirrors_setArgName text s
  | argValue text => exact Arg.mirrors_setArgValue text s
  | instructionName text => exact Arg.mirrors_setInstructionName text s
  | user text => exact Owner.mirrors missing (.set (.user text)) s
  | group text => exact Owner.mirrors missing (.set (.group text)) s
  | key text => exact KeyValue.mirrors missing (.key text) s
  | value text => exact KeyValue.mirrors missing (.value text) s

/-- No setter changes the escape character. -/
theorem escape_run (f : FieldSetter subject) (s : subject.State) :
    subject.escape (Edit.apply f.run s).result = subject.escape s := by
  cases f with
  | argName text =>
    obtain ⟨value, same⟩ := Arg.exists_ofParts s
    rw [same]
    exact congrArg (fun p => p.result.escape) (Arg.mirrors_nameEdit text)
  | argValue text =>
    obtain ⟨value, same⟩ := Arg.exists_ofParts s
    rw [same]
    exact congrArg (fun p => p.result.escape) (Arg.mirrors_valueEdit text)
  | instructionName text =>
    obtain ⟨value, same⟩ := Arg.exists_ofParts s
    rw [same]
    exact congrArg (fun p => p.result.escape) (Arg.mirrors_headingEdit text)
  | user text => exact congrArg (fun p => p.result.escape) (Owner.mirrors_userEdit text)
  | group text => exact congrArg (fun p => p.result.escape) (Owner.mirrors_groupEdit text)
  | key text =>
    obtain ⟨keyToken, assigned, same⟩ := (KeyValue.Change.key text).run_frame s
    exact (congrArg KeyValue.escape same :)
  | value text =>
    obtain ⟨keyToken, assigned, same⟩ := (KeyValue.Change.value text).run_frame s
    exact (congrArg KeyValue.escape same :)

theorem commute_run {f g : FieldSetter subject} (apart : f.field ≠ g.field) (s : subject.State) :
    Edit.Commute f.run g.run s := by
  cases f with
  | argName text =>
    cases g with
    | argName text' => exact absurd rfl apart
    | argValue text' => exact Arg.commute_name_value text text' s
    | instructionName text' => exact Arg.commute_name_heading text text' s
  | argValue text =>
    cases g with
    | argName text' => exact (Arg.commute_name_value text' text s).symm
    | argValue text' => exact absurd rfl apart
    | instructionName text' => exact Arg.commute_value_heading text text' s
  | instructionName text =>
    cases g with
    | argName text' => exact (Arg.commute_name_heading text' text s).symm
    | argValue text' => exact (Arg.commute_value_heading text' text s).symm
    | instructionName text' => exact absurd rfl apart
  | user text =>
    cases g with
    | user text' => exact absurd rfl apart
    | group text' => exact Owner.commute_user_group text text' s
  | group text =>
    cases g with
    | user text' => exact (Owner.commute_user_group text' text s).symm
    | group text' => exact absurd rfl apart
  | key text =>
    cases g with
    | key text' => exact absurd rfl apart
    | value text' => exact KeyValue.commute_key_value text text' s
  | value text =>
    cases g with
    | key text' => exact (KeyValue.commute_key_value text' text s).symm
    | value text' => exact absurd rfl apart

theorem repeats_run (f : FieldSetter subject) (s : subject.State) : f.run.Repeats s := by
  cases f with
  | argName text => exact Arg.repeats_setArgName text s
  | argValue text => exact Arg.repeats_setArgValue text s
  | instructionName text => exact Arg.repeats_setInstructionName text s
  | user text => exact Owner.repeats_setUser text s
  | group text => exact Owner.repeats_setGroup text s
  | key text => exact KeyValue.repeats_setKey text s
  | value text => exact KeyValue.repeats_setValue text s

end FieldSetter

/-- Setters of different fields commute: in either order both end as they do by themselves, and the
same is left. A setter that has succeeded succeeds once more with the same text, and changes
nothing. Both hold in every state, of records and of their lists of tokens, whatever is done to a
list in which a field is not found. -/
theorem FieldSetter.commute_and_repeat (subject : Subject) (s : subject.State) :
    (∀ f g : FieldSetter subject, f.field ≠ g.field →
      Edit.Commute f.run g.run s ∧
      ∀ missing, Edit.Commute (f.onTokens missing (subject.escape s))
        (g.onTokens missing (subject.escape s)) (subject.tokens s)) ∧
    ∀ f : FieldSetter subject, f.run.Repeats s ∧
      ∀ missing, (f.onTokens missing (subject.escape s)).Repeats (subject.tokens s) := by
  have mirrored (missing : Edit (List Token) Unit) (f : FieldSetter subject) (s' : subject.State)
      (same : subject.escape s' = subject.escape s) :
      Edit.Mirrors subject.tokens s' (f.onTokens missing (subject.escape s)) f.run := by
    rw [← same]
    exact f.mirrors missing s'
  refine ⟨fun f g apart => ⟨commute_run apart s, fun missing => ?_⟩, fun f =>
    ⟨f.repeats_run s, fun missing => ?_⟩⟩
  · exact (commute_run apart s).image (mirrored missing f) (mirrored missing g) (f.escape_run s)
      (g.escape_run s) rfl
  · exact (f.repeats_run s).image (mirrored missing f s rfl)
      (mirrored missing f _ (f.escape_run s))

/-- `ARG x` takes the name `y` and the value `1 2`, which needs quotes. It makes no difference which
of them is set first, and with its quotes `ARG x="1 2"` takes the value once more. -/
theorem FieldSetter.commute_and_repeat_sample :
    ∃ a after, Arg.parse '\\' "ARG x".toList = .ok a ∧
      (argName ['y']).field ≠ (argValue (some ['1', ' ', '2'])).field ∧
      Edit.Commute (Arg.setArgName ['y']) (Arg.setArgValue (some ['1', ' ', '2'])) a ∧
      Edit.apply (Arg.setArgValue (some ['1', ' ', '2'])) a = ⟨after, none⟩ ∧
      after.render = "ARG x=\"1 2\"".toList ∧
      Edit.apply (Arg.setArgValue (some ['1', ' ', '2'])) after = ⟨after, none⟩ := by
  obtain ⟨a, h⟩ := exists_of_isOk (x := Arg.parse '\\' "ARG x".toList) (by decide +kernel)
  obtain ⟨after, done, text⟩ := Edit.exists_accepted (g := Arg.render)
    (b := "ARG x=\"1 2\"".toList) (Arg.setArgValue (some ['1', ' ', '2'])) id h
    (by decide +kernel)
  obtain ⟨commute, repeats⟩ := commute_and_repeat .declaration a
  have apart : (argName ['y']).field ≠ (argValue (some ['1', ' ', '2'])).field := by decide
  exact ⟨a, after, h, apart, (commute _ _ apart).1, done, text,
    (repeats (argValue (some ['1', ' ', '2']))).1 _ done⟩

end DockerfileSyntax
