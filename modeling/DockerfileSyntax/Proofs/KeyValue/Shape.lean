import DockerfileSyntax.Proofs.KeyValue

/-!
# The tokens of a pair

A pair is made of the mark of a flag or of nothing, then of a key, and then of a separator and a
value or of nothing. `KeyValue.HasShape` says so of a list of tokens. These are the lists that are
taken for pairs, and those that are read with any grammars of the key and the value.

1. `KeyValue.ofTokens_eq_ok`, `KeyValue.exists_ofTokens_iff`: which lists of tokens are pairs.
2. `KeyValue.parse_onTokens`: reading a list of tokens and taking it for a pair is reading a pair.
-/

namespace DockerfileSyntax

open Grammar DockerfileSyntax.Parser

variable {K V : ValueKind}

/-! ## Tokens of a kind -/

namespace ValueKind

@[simp] theorem ofToken?_toToken (K : ValueKind) (k : K.Carrier) :
    K.ofToken? (K.toToken k) = some k := by
  cases K <;> rfl

theorem ofToken?_eq_some {t : Token} {k : K.Carrier} : K.ofToken? t = some k ↔ t = K.toToken k := by
  constructor
  · intro h
    unfold ofToken? at h
    split at h
    · cases h
      rfl
    · cases h
      rfl
    · cases h
      rfl
    · cases h
  · rintro rfl
    exact K.ofToken?_toToken k

/-- A key or a value is a node. -/
theorem toToken_ne_leaf (K : ValueKind) (k : K.Carrier) (kind : LeafKind) (text : Text) :
    K.toToken k ≠ .leaf kind text := by
  cases K <;> exact nofun

end ValueKind

/-- An equals sign, a colon or white space. -/
def IsSeparator (t : Token) : Prop :=
  t = .punctuation ['='] ∨ t = .punctuation [':'] ∨ ∃ text, t = .whitespace text

theorem Separator.isSeparator_toToken (between : Separator) : IsSeparator between.toToken := by
  cases between with
  | equals => exact .inl rfl
  | colon => exact .inr (.inl rfl)
  | blanks text => exact .inr (.inr ⟨text, rfl⟩)

@[simp] theorem Separator.ofToken?_toToken (between : Separator) :
    ofToken? between.toToken = some between := by
  cases between <;> rfl

theorem Separator.ofToken?_eq_some {t : Token} {between : Separator} :
    ofToken? t = some between ↔ t = between.toToken := by
  constructor
  · intro h
    unfold ofToken? at h
    split at h
    · split at h
      · next same => rw [same, ← Option.some.inj h]; rfl
      · split at h
        · next same => rw [same, ← Option.some.inj h]; rfl
        · cases h
    · cases h
      rfl
    · cases h
  · rintro rfl
    exact ofToken?_toToken between

theorem isSeparator_iff {t : Token} :
    IsSeparator t ↔ ∃ between : Separator, t = between.toToken := by
  constructor
  · rintro (rfl | rfl | ⟨text, rfl⟩)
    · exact ⟨.equals, rfl⟩
    · exact ⟨.colon, rfl⟩
    · exact ⟨.blanks text, rfl⟩
  · rintro ⟨between, rfl⟩
    exact between.isSeparator_toToken

namespace KeyValue

/-! ## Taking tokens for a pair -/

/-- The tokens of a separator and a value, if there are any. -/
def assignedTokens : Option (Separator × V.Carrier) → List Token
  | none => []
  | some (between, value) => [between.toToken, V.toToken value]

/-- The mark of a flag as tokens, if it is one. -/
def markTokens (isFlag : Bool) : List Token := if isFlag then [.symbol flagMark] else []

theorem tokens_eq (p : KeyValue K V) :
    p.tokens = markTokens p.isFlag ++ K.toToken p.keyToken :: assignedTokens p.assigned := by
  obtain ⟨isFlag, keyToken, assigned, escape⟩ := p
  rcases assigned with _ | ⟨between, value⟩ <;> rfl

theorem assignedOfTokens?_eq_some {ts : List Token} {assigned : Option (Separator × V.Carrier)} :
    assignedOfTokens? ts = some assigned ↔ ts = assignedTokens assigned := by
  constructor
  · intro h
    unfold assignedOfTokens? at h
    split at h
    · cases h
      rfl
    · split at h
      · next isSeparator isValue =>
        cases h
        rw [Separator.ofToken?_eq_some.mp isSeparator, ValueKind.ofToken?_eq_some.mp isValue]
        rfl
      · cases h
    · cases h
  · rintro rfl
    rcases assigned with _ | ⟨between, value⟩
    · rfl
    · simp [assignedTokens, assignedOfTokens?]

theorem ofUnflagged_eq_ok {e : Char} {isFlag : Bool} {ts : List Token} {p : KeyValue K V} :
    ofUnflagged e isFlag ts = .ok p ↔ p.isFlag = isFlag ∧ p.escape = e ∧
      ts = K.toToken p.keyToken :: assignedTokens p.assigned := by
  constructor
  · intro h
    unfold ofUnflagged at h
    split at h
    · cases h
    · split at h
      · cases h
      · cases h
      · next isKey isAssigned =>
        cases h
        rw [ValueKind.ofToken?_eq_some.mp isKey, assignedOfTokens?_eq_some.mp isAssigned]
        exact ⟨rfl, rfl, rfl⟩
  · rintro ⟨rfl, rfl, rfl⟩
    rw [ofUnflagged, ValueKind.ofToken?_toToken, assignedOfTokens?_eq_some.mpr rfl]

/-- The first token is the mark of a flag. -/
def OnTokens.isFlag : List Token → Bool
  | .symbol mark :: _ => mark = flagMark
  | _ => false

open OnTokens

theorem isFlag_iff {ts : List Token} :
    OnTokens.isFlag ts = true ↔ ∃ tail, ts = .symbol flagMark :: tail := by
  constructor
  · intro h
    unfold OnTokens.isFlag at h
    split at h
    · next mark tail =>
      rw [of_decide_eq_true h]
      exact ⟨tail, rfl⟩
    · cases h
  · rintro ⟨tail, rfl⟩
    rfl

theorem isFlag_toToken (k : K.Carrier) (ts : List Token) :
    OnTokens.isFlag (K.toToken k :: ts) = false := by
  cases K <;> rfl

@[simp] theorem isFlag_tokens (p : KeyValue K V) : OnTokens.isFlag p.tokens = p.isFlag := by
  rw [tokens_eq]
  cases p.isFlag with
  | true => rfl
  | false => exact isFlag_toToken p.keyToken _

theorem ofTokens_eq (e : Char) (ts : List Token) :
    (ofTokens e ts : Except Error (KeyValue K V)) =
      if OnTokens.isFlag ts then ofUnflagged e true ts.tail else ofUnflagged e false ts := by
  unfold ofTokens
  split
  · next mark tail => by_cases isMark : mark = flagMark <;> simp [OnTokens.isFlag, isMark]
  · next noSymbol =>
    have unmarked : OnTokens.isFlag ts = false := by
      rw [← Bool.not_eq_true]
      intro flag
      obtain ⟨tail, same⟩ := isFlag_iff.mp flag
      exact noSymbol _ _ same
    rw [unmarked]
    rfl

/-- A list of tokens is taken for a pair if and only if it is the list of tokens of this pair. -/
theorem ofTokens_eq_ok {e : Char} {ts : List Token} {p : KeyValue K V} :
    ofTokens e ts = .ok p ↔ p.tokens = ts ∧ p.escape = e := by
  rw [ofTokens_eq]
  constructor
  · intro h
    cases flag : OnTokens.isFlag ts with
    | true =>
      obtain ⟨tail, rfl⟩ := isFlag_iff.mp flag
      rw [flag, if_pos rfl] at h
      obtain ⟨isFlag, escape, same⟩ := ofUnflagged_eq_ok.mp h
      rw [tokens_eq, isFlag, ← same]
      exact ⟨rfl, escape⟩
    | false =>
      rw [flag, if_neg Bool.false_ne_true] at h
      obtain ⟨isFlag, escape, same⟩ := ofUnflagged_eq_ok.mp h
      rw [tokens_eq, isFlag, ← same]
      exact ⟨rfl, escape⟩
  · rintro ⟨rfl, rfl⟩
    rw [isFlag_tokens]
    cases flag : p.isFlag with
    | true =>
      rw [if_pos rfl, tokens_eq, flag]
      exact ofUnflagged_eq_ok.mpr ⟨flag, rfl, rfl⟩
    | false =>
      rw [if_neg Bool.false_ne_true, tokens_eq, flag]
      exact ofUnflagged_eq_ok.mpr ⟨flag, rfl, rfl⟩

/-- The lists of tokens that have the shape of a pair: perhaps the mark of a flag, a key of the one
kind, and either nothing or a separator and a value of the other kind. -/
inductive HasShape (K V : ValueKind) : List Token → Prop
  | alone {mark : List Token} (key : K.Carrier) :
      mark = [] ∨ mark = [.symbol flagMark] → HasShape K V (mark ++ [K.toToken key])
  | assigned {mark : List Token} {between : Token} (key : K.Carrier) (value : V.Carrier) :
      mark = [] ∨ mark = [.symbol flagMark] → IsSeparator between →
      HasShape K V (mark ++ [K.toToken key, between, V.toToken value])

theorem markTokens_cases (isFlag : Bool) :
    markTokens isFlag = [] ∨ markTokens isFlag = [.symbol flagMark] := by
  cases isFlag with
  | true => exact .inr rfl
  | false => exact .inl rfl

theorem exists_markTokens {mark : List Token} (h : mark = [] ∨ mark = [.symbol flagMark]) :
    ∃ isFlag, mark = markTokens isFlag := by
  rcases h with rfl | rfl
  · exact ⟨false, rfl⟩
  · exact ⟨true, rfl⟩

theorem hasShape_tokens (p : KeyValue K V) : HasShape K V p.tokens := by
  rw [tokens_eq]
  rcases p.assigned with _ | ⟨between, value⟩
  · exact .alone p.keyToken (markTokens_cases p.isFlag)
  · exact .assigned p.keyToken value (markTokens_cases p.isFlag) between.isSeparator_toToken

theorem HasShape.exists_tokens {ts : List Token} (h : HasShape K V ts) (e : Char) :
    ∃ p : KeyValue K V, p.tokens = ts ∧ p.escape = e := by
  cases h with
  | alone key isMark =>
    obtain ⟨isFlag, rfl⟩ := exists_markTokens isMark
    exact ⟨⟨isFlag, key, none, e⟩, tokens_eq _, rfl⟩
  | assigned key value isMark isSeparator =>
    obtain ⟨isFlag, rfl⟩ := exists_markTokens isMark
    obtain ⟨between, rfl⟩ := isSeparator_iff.mp isSeparator
    exact ⟨⟨isFlag, key, some (between, value), e⟩, tokens_eq _, rfl⟩

/-- The lists of tokens that are taken for pairs are those of this shape. -/
theorem exists_ofTokens_iff {e : Char} {ts : List Token} :
    (∃ p : KeyValue K V, ofTokens e ts = .ok p) ↔ HasShape K V ts := by
  constructor
  · rintro ⟨p, h⟩
    obtain ⟨rfl, -⟩ := ofTokens_eq_ok.mp h
    exact hasShape_tokens p
  · intro h
    obtain ⟨p, same⟩ := h.exists_tokens e
    exact ⟨p, ofTokens_eq_ok.mpr same⟩

/-! ## Reading tokens -/

theorem readAll_map {α β : Type} (f : α → β) (p : Parser α) (text : Text) :
    readAll (f <$> p) text = (readAll p text).map f := by
  rw [readAll, readAs, complete_map, readAll, readAs]
  cases complete p text <;> rfl

namespace OnTokens

/-- The mark of a flag. -/
def mark (isFlag : Bool) : Parser (List Token) :=
  if isFlag then do
    eat flagMark
    return [.symbol flagMark]
  else return []

/-- A separator and a value. -/
def assigning (value : Parser V.Carrier) : Parser (List Token) := do
  let between ← separator
  let found ← value
  return [between.toToken, V.toToken found]

/-- A key, behind two dashes if it is a flag, and perhaps a separator and a value. -/
def keyValue (isFlag : Bool) (key : Parser K.Carrier) (value : Parser V.Carrier) :
    Parser (List Token) := do
  let marked ← mark isFlag
  let keyToken ← key
  let assigned ← optional (assigning value)
  return marked ++ K.toToken keyToken :: assigned.getD []

/-- Reads tokens and takes them for a pair. -/
def parse (escape : Char) (isFlag : Bool) (key : Parser K.Carrier) (value : Parser V.Carrier)
    (text : Text) : Except Error (KeyValue K V) := do
  let ts ← readAll (keyValue isFlag key value) text
  ofTokens escape ts

end OnTokens

theorem assigning_eq (value : Parser V.Carrier) : OnTokens.assigning value =
    (fun pair => assignedTokens (some pair)) <$> Grammar.assigning value := by
  simp [OnTokens.assigning, Grammar.assigning, assignedTokens]

theorem getD_assigned (assigned : Option (Separator × V.Carrier)) :
    (assigned.map fun pair => assignedTokens (some pair)).getD [] = assignedTokens assigned := by
  cases assigned <;> rfl

/-- The tokens that are read are those of the pair that is read. -/
theorem keyValue_eq (e : Char) (isFlag : Bool) (key : Parser K.Carrier)
    (value : Parser V.Carrier) :
    OnTokens.keyValue isFlag key value = tokens <$> Grammar.keyValue e isFlag key value := by
  have optionally : Parser.optional (OnTokens.assigning value) =
      (Option.map fun pair => assignedTokens (some pair)) <$>
        Parser.optional (Grammar.assigning value) := by
    rw [assigning_eq, Parser.optional_map]
  have whole : Grammar.keyValue e isFlag key value = (do
      if isFlag then eat flagMark
      Grammar.unmarked e isFlag key value) := rfl
  rw [whole, OnTokens.keyValue, optionally]
  cases isFlag <;> simp [OnTokens.mark, Grammar.unmarked, tokens_eq, markTokens, getD_assigned]

theorem escape_of_parse {e : Char} {isFlag : Bool} {key : Parser K.Carrier}
    {value : Parser V.Carrier} {text : Text} {p : KeyValue K V}
    (h : parse e isFlag key value text = .ok p) : p.escape = e := by
  -- the grammar puts the character into its result, and so putting it there again is no change
  have again : Grammar.keyValue e isFlag key value =
      (fun p : KeyValue K V => { p with escape := e }) <$> Grammar.keyValue e isFlag key value := by
    cases isFlag <;> simp [Grammar.keyValue]
  rw [parse, again, readAll_map] at h
  cases read : readAll (Grammar.keyValue e isFlag key value) text with
  | error error =>
    rw [read] at h
    cases h
  | ok q =>
    rw [read] at h
    cases h
    rfl

/-- Whatever the grammars of the key and the value are, the tokens that are read are taken for the
pair that is read. -/
theorem parse_onTokens (e : Char) (isFlag : Bool) (key : Parser K.Carrier)
    (value : Parser V.Carrier) (text : Text) :
    OnTokens.parse e isFlag key value text = parse e isFlag key value text := by
  rw [OnTokens.parse, keyValue_eq e, readAll_map]
  show ((parse e isFlag key value text).map tokens >>= ofTokens e) = _
  cases read : parse e isFlag key value text with
  | error error => rfl
  | ok p => exact ofTokens_eq_ok.mpr ⟨rfl, escape_of_parse read⟩

end KeyValue

end DockerfileSyntax
