import DockerfileSyntax.Proofs.KeyValue.Shape
import DockerfileSyntax.Proofs.Mirroring

/-!
# Editing the tokens of a pair

The parts of a pair can be found among its tokens by their places: the key is the first token, or
the second one behind the mark of a flag, and the value stands two places behind the key. The edits
in `KeyValue.OnTokens` work on the list of tokens in this way. They need not find a key of the right
kind: `missing` stands for what they do then, and may be anything.

1. `KeyValue.mirrors`: a change of the tokens does what the change of the pair does.
2. `KeyValue.pairs_keep_shape`: in every state, the tokens are those of a pair.
-/

namespace DockerfileSyntax

open Grammar DockerfileSyntax.Parser

variable {K V : ValueKind}

namespace KeyValue

open OnTokens

/-! ## Edits of tokens -/

/-- Edits the token of the key in its place. -/
def editKey (edit : Edit K.Carrier Unit) : Edit (KeyValue K V) Unit := do
  let p ← get
  Edit.within p.keyToken p.withKeyToken edit

/-- Edits the token of the value in its place. Without a value there is nothing to edit. -/
def editValue (edit : Edit V.Carrier Unit) : Edit (KeyValue K V) Unit := do
  let p ← get
  match p.valueToken with
  | some value => Edit.within value p.withValueToken edit
  | none => return ()

/-- A new key or value, or an edit of one of their tokens in its place, which may be any edit at
all. -/
inductive Change (K V : ValueKind) where
  | key (text : Text)
  | value (text : Option Text)
  | editKey (edit : Edit K.Carrier Unit)
  | editValue (edit : Edit V.Carrier Unit)

/-- What the change does. -/
def Change.run : Change K V → Edit (KeyValue K V) Unit
  | .key text => setKey text
  | .value text => setValue text
  | .editKey edit => KeyValue.editKey edit
  | .editValue edit => KeyValue.editValue edit

namespace OnTokens

/-- The place of the key. -/
def keyIndex (ts : List Token) : Nat := if OnTokens.isFlag ts then 1 else 0

/-- The key, if the token in its place is of the kind. -/
def keyToken (K : ValueKind) (ts : List Token) : Option K.Carrier :=
  ts[keyIndex ts]?.bind K.ofToken?

/-- The value, if there is a token in its place and it is of the kind. -/
def valueToken (V : ValueKind) (ts : List Token) : Option V.Carrier :=
  ts[keyIndex ts + 2]?.bind V.ofToken?

/-- Edits the key in its place. -/
def editKey (missing : Edit (List Token) Unit) (edit : Edit K.Carrier Unit) :
    Edit (List Token) Unit := do
  let ts ← get
  match keyToken K ts with
  | some key => Edit.within key (fun key => ts.set (keyIndex ts) (K.toToken key)) edit
  | none => missing

/-- Edits the value in its place, if there is one. -/
def editValue (edit : Edit V.Carrier Unit) : Edit (List Token) Unit := do
  let ts ← get
  match valueToken V ts with
  | some value => Edit.within value (fun value => ts.set (keyIndex ts + 2) (V.toToken value)) edit
  | none => return ()

/-- Sets the value, adds it behind an equals sign at the end, or removes all behind the key. -/
def setValue (V : ValueKind) (escape : Char) : Option Text → Edit (List Token) Unit
  | none => do
    let ts ← get
    set (ts.take (keyIndex ts + 1))
  | some text => do
    let ts ← get
    let setting := V.setText escape text
    match valueToken V ts with
    | some value =>
      Edit.within value (fun value => ts.set (keyIndex ts + 2) (V.toToken value)) setting
    | none =>
      let value ← Edit.edited setting (V.ofValue text)
      set (ts ++ [.punctuation ['='], V.toToken value])

end OnTokens

/-- What the change does to the tokens of a pair. -/
def Change.onTokens (missing : Edit (List Token) Unit) (escape : Char) :
    Change K V → Edit (List Token) Unit
  | .key text => OnTokens.editKey missing (K.setText escape text)
  | .value text => OnTokens.setValue V escape text
  | .editKey edit => OnTokens.editKey missing edit
  | .editValue edit => OnTokens.editValue edit

/-! ## What is found among the tokens -/

section Places

variable (p : KeyValue K V)

theorem keyIndex_tokens : keyIndex p.tokens = (markTokens p.isFlag).length := by
  rw [keyIndex, isFlag_tokens]
  cases p.isFlag <;> rfl

theorem keyToken_tokens : OnTokens.keyToken K p.tokens = some p.keyToken := by
  rw [OnTokens.keyToken, keyIndex_tokens, tokens_eq]
  simp

theorem valueToken_tokens : OnTokens.valueToken V p.tokens = p.valueToken := by
  rw [OnTokens.valueToken, keyIndex_tokens, tokens_eq, KeyValue.valueToken]
  rcases p.assigned with _ | ⟨between, value⟩ <;> simp [assignedTokens]

theorem tokens_set_key (key : K.Carrier) :
    p.tokens.set (keyIndex p.tokens) (K.toToken key) = (p.withKeyToken key).tokens := by
  rw [keyIndex_tokens, tokens_eq, tokens_eq]
  simp [withKeyToken]

theorem tokens_take :
    p.tokens.take (keyIndex p.tokens + 1) =
      ({ p with assigned := none } : KeyValue K V).tokens := by
  rw [keyIndex_tokens, tokens_eq p, tokens_eq, List.take_length_add_append]
  rfl

variable {p}

theorem tokens_set_value {between : Separator} {old : V.Carrier}
    (h : p.assigned = some (between, old)) (value : V.Carrier) :
    p.tokens.set (keyIndex p.tokens + 2) (V.toToken value) = (p.withValueToken value).tokens := by
  rw [keyIndex_tokens, tokens_eq, tokens_eq, withValueToken, h]
  simp [assignedTokens]

theorem tokens_append_value (h : p.assigned = none) (value : V.Carrier) :
    p.tokens ++ [.punctuation ['='], V.toToken value] =
      ({ p with assigned := some (.equals, value) } : KeyValue K V).tokens := by
  rw [tokens_eq, tokens_eq, h]
  simp [assignedTokens, Separator.toToken]

theorem not_isSeparator_of_mem {t : Token} (h : t ∈ markTokens p.isFlag ++ [K.toToken p.keyToken]) :
    ¬ IsSeparator t := by
  rcases List.mem_append.mp h with h | h
  · cases flag : p.isFlag with
    | true =>
      rw [flag] at h
      obtain rfl := List.mem_singleton.mp h
      rintro (same | same | ⟨text, same⟩) <;> cases same
    | false =>
      rw [flag] at h
      cases h
  · obtain rfl := List.mem_singleton.mp h
    rintro (same | same | ⟨text, same⟩)
    · exact K.toToken_ne_leaf _ _ _ same
    · exact K.toToken_ne_leaf _ _ _ same
    · exact K.toToken_ne_leaf _ _ _ same

/-- Among the tokens of a pair there is a separator if and only if there is a value. -/
theorem valueToken_eq_none_iff : p.valueToken = none ↔ ∀ t ∈ p.tokens, ¬ IsSeparator t := by
  rw [valueToken, tokens_eq]
  rcases p.assigned with _ | ⟨between, value⟩
  · exact iff_of_true rfl fun t => not_isSeparator_of_mem
  · refine iff_of_false nofun fun noSeparator => ?_
    exact noSeparator between.toToken (by simp [assignedTokens]) between.isSeparator_toToken

end Places

/-! ## Each change -/

theorem mirrors_editKey (missing : Edit (List Token) Unit) (edit : Edit K.Carrier Unit)
    (p : KeyValue K V) : Edit.Mirrors tokens p (OnTokens.editKey missing edit) (editKey edit) := by
  refine .readImage <| .read ?_
  rw [keyToken_tokens]
  exact Edit.mirrors_within edit (tokens_set_key p)

theorem mirrors_setKey (missing : Edit (List Token) Unit) (text : Text) (p : KeyValue K V) :
    Edit.Mirrors tokens p (OnTokens.editKey missing (K.setText p.escape text)) (setKey text) := by
  refine .readImage <| .read ?_
  rw [keyToken_tokens]
  exact Edit.mirrors_within _ (tokens_set_key p)

theorem mirrors_editValue (edit : Edit V.Carrier Unit) (p : KeyValue K V) :
    Edit.Mirrors tokens p (OnTokens.editValue edit) (editValue edit) := by
  refine .readImage <| .read ?_
  rw [valueToken_tokens, valueToken]
  cases ha : p.assigned with
  | none => rfl
  | some assigned =>
    obtain ⟨between, value⟩ := assigned
    exact Edit.mirrors_within edit (tokens_set_value ha)

theorem mirrors_setValue (text : Option Text) (p : KeyValue K V) :
    Edit.Mirrors tokens p (OnTokens.setValue V p.escape text) (setValue text) := by
  cases text with
  | none => exact .readImage <| Edit.mirrors_set_modify (tokens_take p)
  | some text =>
    refine .readImage <| .read ?_
    rw [valueToken_tokens, valueToken]
    cases ha : p.assigned with
    | none => exact .check (fun value => Edit.mirrors_set (tokens_append_value ha value)) _
    | some assigned =>
      obtain ⟨between, value⟩ := assigned
      exact Edit.mirrors_within _ (tokens_set_value ha)

/-- A change of the tokens does what the change of the pair does, whatever is done where no key is
found. -/
theorem mirrors (missing : Edit (List Token) Unit) (change : Change K V) (p : KeyValue K V) :
    Edit.Mirrors tokens p (change.onTokens missing p.escape) change.run := by
  cases change with
  | key text => exact mirrors_setKey missing text p
  | value text => exact mirrors_setValue text p
  | editKey edit => exact mirrors_editKey missing edit p
  | editValue edit => exact mirrors_editValue edit p

theorem setValue_frame (text : Option Text) (p : KeyValue K V) :
    ∃ assigned, (Edit.apply (setValue text) p).result = { p with assigned } := by
  cases text with
  | none => exact ⟨none, rfl⟩
  | some text =>
    rw [setValue, Edit.apply, Edit.get_bind, valueToken]
    cases ha : p.assigned with
    | some assigned =>
      obtain ⟨between, value⟩ := assigned
      have within := Edit.apply_within value p.withValueToken (V.setText p.escape text) p
      exact ⟨_, congrArg Progress.result within⟩
    | none =>
      dsimp only [Option.map_none]
      rw [Edit.check_bind]
      cases Edit.edited (V.setText p.escape text) (V.ofValue text) with
      | ok value => exact ⟨some (.equals, value), rfl⟩
      | error error => exact ⟨none, by rw [← ha]⟩

theorem editValue_frame (edit : Edit V.Carrier Unit) (p : KeyValue K V) :
    ∃ assigned, (Edit.apply (editValue edit) p).result = { p with assigned } := by
  rw [editValue, Edit.apply, Edit.get_bind]
  cases p.valueToken with
  | none => exact ⟨p.assigned, rfl⟩
  | some value =>
    have within := Edit.apply_within value p.withValueToken edit p
    exact ⟨_, congrArg Progress.result within⟩

/-- No change makes a flag of a pair that is none or the other way round, and none touches the
escape character. -/
theorem Change.run_frame (change : Change K V) (p : KeyValue K V) :
    ∃ keyToken assigned, (Edit.apply change.run p).result = { p with keyToken, assigned } := by
  cases change with
  | key text =>
    have within := Edit.apply_within p.keyToken p.withKeyToken (K.setText p.escape text) p
    exact ⟨_, p.assigned, congrArg Progress.result within⟩
  | editKey edit =>
    have within := Edit.apply_within p.keyToken p.withKeyToken edit p
    exact ⟨_, p.assigned, congrArg Progress.result within⟩
  | value text => exact ⟨p.keyToken, setValue_frame text p⟩
  | editValue edit => exact ⟨p.keyToken, editValue_frame edit p⟩

/-! ## All pairs -/

/-- The lists of tokens that can be come by where the edits work on the tokens alone and `e` is the
escape character by now: taken for a pair, read or created with any grammars, and changed any number
of times, with success or without. In between another escape character may be chosen. -/
inductive OnTokens.Reached (K V : ValueKind) (missing : Edit (List Token) Unit) :
    Char → List Token → Prop
  | ofTokens {e : Char} {ts : List Token} {p : KeyValue K V} :
      KeyValue.ofTokens e ts = .ok p → Reached K V missing e ts
  | read {e : Char} {isFlag : Bool} {key : Parser K.Carrier} {value : Parser V.Carrier}
      {text : Text} {p : KeyValue K V} :
      KeyValue.parse e isFlag key value text = .ok p → Reached K V missing e p.tokens
  | created {e : Char} {isFlag : Bool} {key : Parser K.Carrier} {value : Parser V.Carrier}
      {keyText : Text} {valueText : Option Text} {p : KeyValue K V} :
      create e isFlag key value keyText valueText = .ok p → Reached K V missing e p.tokens
  | escaped {e : Char} (e' : Char) {ts : List Token} :
      Reached K V missing e ts → Reached K V missing e' ts
  | changed {e : Char} (change : Change K V) {ts : List Token} : Reached K V missing e ts →
      Reached K V missing e (Edit.apply (change.onTokens missing e) ts).result

theorem exists_parse_of_create {e : Char} {isFlag : Bool} {key : Parser K.Carrier}
    {value : Parser V.Carrier} {keyText : Text} {valueText : Option Text} {p : KeyValue K V}
    (h : create e isFlag key value keyText valueText = .ok p) :
    ∃ text, parse e isFlag key value text = .ok p := by
  cases keyText with
  | nil => cases h
  | cons c keyText => exact ⟨_, h⟩

/-- In every state the tokens are those of a pair. -/
theorem exists_tokens_of_reached {missing : Edit (List Token) Unit} {e : Char} {ts : List Token}
    (h : Reached K V missing e ts) : ∃ p : KeyValue K V, p.tokens = ts ∧ p.escape = e := by
  induction h with
  | ofTokens h => exact ⟨_, ofTokens_eq_ok.mp h⟩
  | read h => exact ⟨_, rfl, escape_of_parse h⟩
  | created h =>
    obtain ⟨text, read⟩ := exists_parse_of_create h
    exact ⟨_, rfl, escape_of_parse read⟩
  | escaped e' _ ih =>
    obtain ⟨p, rfl, -⟩ := ih
    exact ⟨{ p with escape := e' }, rfl, rfl⟩
  | changed change _ ih =>
    obtain ⟨p, rfl, rfl⟩ := ih
    have mirrored := congrArg Progress.result (mirrors missing change p)
    obtain ⟨keyToken, assigned, same⟩ := change.run_frame p
    exact ⟨_, mirrored.symm, by rw [same]⟩

theorem parse_ne_shape {isFlag : Bool} {key : Parser K.Carrier} {value : Parser V.Carrier}
    {text : Text} {fault : ShapeFault} : parse e isFlag key value text ≠ .error (.shape fault) := by
  intro h
  rw [parse, readAll, readAs] at h
  cases read : complete (Grammar.keyValue e isFlag key value) text with
  | ok p => rw [read] at h; cases h
  | error error => rw [read] at h; cases h

/-- For keys and values of any kinds: in every state the tokens have the shape of a pair. The key is
there, a value is there if and only if a separator is, and no change makes or unmakes a flag; so an
edit may work on the tokens, and it does what the edit of the pair does, whatever is done where no
key is found. The lists that are taken for pairs are those of this shape, and what any grammars read
is among them: that the tokens have another shape is never the reason why a text is not read. -/
theorem pairs_keep_shape (K V : ValueKind) (missing : Edit (List Token) Unit) (e : Char) :
    (∀ ts, Reached K V missing e ts →
      HasShape K V ts ∧ (OnTokens.keyToken K ts).isSome = true ∧
      (OnTokens.valueToken V ts = none ↔ ∀ t ∈ ts, ¬ IsSeparator t) ∧
      (∀ change : Change K V,
        OnTokens.isFlag (Edit.apply (change.onTokens missing e) ts).result =
          OnTokens.isFlag ts) ∧
      ∃ p : KeyValue K V, p.tokens = ts ∧ p.isFlag = OnTokens.isFlag ts ∧
        OnTokens.keyToken K ts = some p.keyToken ∧ OnTokens.valueToken V ts = p.valueToken ∧
        ∀ change : Change K V, Edit.apply (change.onTokens missing e) ts =
          ⟨(Edit.apply change.run p).result.tokens, (Edit.apply change.run p).error⟩) ∧
    (∀ ts, (∃ p : KeyValue K V, ofTokens e ts = .ok p) ↔ HasShape K V ts) ∧
    (∀ ts, ∀ p : KeyValue K V, ofTokens e ts = .ok p → p.tokens = ts) ∧
    ∀ (isFlag : Bool) (key : Parser K.Carrier) (value : Parser V.Carrier) (text : Text),
      OnTokens.parse e isFlag key value text = parse e isFlag key value text ∧
      ∀ fault, OnTokens.parse e isFlag key value text ≠ .error (.shape fault) := by
  refine ⟨fun ts h => ?_, fun ts => exists_ofTokens_iff, fun ts p h => (ofTokens_eq_ok.mp h).1,
    fun isFlag key value text => ⟨parse_onTokens e isFlag key value text, fun fault => ?_⟩⟩
  · obtain ⟨p, rfl, rfl⟩ := exists_tokens_of_reached h
    refine ⟨hasShape_tokens p, ?_, ?_, fun change => ?_, p, rfl, (isFlag_tokens p).symm,
      keyToken_tokens p, valueToken_tokens p, fun change => mirrors missing change p⟩
    · rw [keyToken_tokens]
      rfl
    · rw [valueToken_tokens, valueToken_eq_none_iff]
    · have mirrored := congrArg Progress.result (mirrors missing change p)
      obtain ⟨keyToken, assigned, same⟩ := change.run_frame p
      rw [mirrored, isFlag_tokens, isFlag_tokens, same]
  · rw [parse_onTokens]
    exact parse_ne_shape

/-- The tokens of `--k v` lose their value and take the value `w`, where `^` is the escape
character. Then they are those of `--k=w`, and with another key they are still those of a flag. -/
theorem pairs_keep_shape_sample :
    let run (change : Change .identifier .literal) (ts : List Token) : List Token :=
      (Edit.apply (change.onTokens (pure ()) '^') ts).result
    ∃ p : KeyValue .identifier .literal,
      ofTokens '^' [.symbol ['-', '-'], .identifier none [.string ['k']], .whitespace [' '],
        .literal none [.string ['v']]] = .ok p ∧
      Token.renderAll (run (.value none) p.tokens) = "--k".toList ∧
      ∃ ts, ts = run (.value (some ['w'])) (run (.value none) p.tokens) ∧
        Token.renderAll ts = "--k=w".toList ∧ Reached .identifier .literal (pure ()) '^' ts ∧
        HasShape .identifier .literal ts ∧ ¬ (∀ t ∈ ts, ¬ IsSeparator t) ∧
        Token.renderAll (run (.key ['j']) ts) = "--j=w".toList ∧
        OnTokens.isFlag (run (.key ['j']) ts) = true := by
  intro run
  have taken : ofTokens '^' [.symbol ['-', '-'], .identifier none [.string ['k']],
      .whitespace [' '], .literal none [.string ['v']]] =
      .ok (⟨true, Identifier.new ['k'], some (.blanks [' '], Literal.new ['v']), '^'⟩ :
        KeyValue .identifier .literal) := ofTokens_eq_ok.mpr ⟨rfl, rfl⟩
  have reached : Reached .identifier .literal (pure ()) '^' _ :=
    .changed (.value (some ['w'])) (.changed (.value none) (.ofTokens taken))
  obtain ⟨shape, -, separated, flag, -⟩ :=
    (pairs_keep_shape .identifier .literal (pure ()) '^').1 _ reached
  refine ⟨_, taken, by decide +kernel, _, rfl, by decide +kernel, reached, shape,
    fun noSeparator => ?_, by decide +kernel, (flag (.key ['j'])).trans (by decide +kernel)⟩
  have noValue := separated.mpr noSeparator
  exact absurd noValue (by decide +kernel)

end KeyValue

end DockerfileSyntax
