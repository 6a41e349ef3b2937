import DockerfileSyntax.Proofs.Content.Completeness

/-!
# What content evaluates to

`Token.evaluateAll` says what a shell makes of content: the text that its parts stand for one after
the other, with a table for the six modifiers. It makes no tokens and joins no strings. Expansion
does both, and it takes the text of an expanded word where evaluation takes a value; all the same,
the parts that it gives have the text that the content evaluates to, and it fails as the evaluation
does: `Part.evaluateAll_eq`.
-/

namespace DockerfileSyntax

/-! ## Evaluation -/

/-- The text that stands for a variable with this modifier, given the value of the variable and what
the word evaluates to. The word does no harm where it is not used. -/
def modifiedText (operator name : Text) (value : Option Text) (word : Except UnsetVariable Text) :
    Except UnsetVariable Text :=
  match operator, value with
  | [':', '-'], none | [':', '-'], some [] => word
  | [':', '-'], some text => .ok text
  | ['-'], none => word
  | ['-'], some text => .ok text
  | [':', '+'], none | [':', '+'], some [] => .ok []
  | [':', '+'], some _ => word
  | ['+'], none => .ok []
  | ['+'], some _ => word
  | [':', '?'], none | [':', '?'], some [] => word.bind fun detail => .error ⟨name, detail⟩
  | [':', '?'], some text => .ok text
  | ['?'], none => word.bind fun detail => .error ⟨name, detail⟩
  | ['?'], some text => .ok text
  | _, _ => .ok (value.getD [])

namespace Token

mutual

/-- The text that a part of content stands for. -/
def evaluate (env : Environment) : Token → Except UnsetVariable Text
  | .string text => .ok text
  | .continuation _ => .ok []
  | .reference _ [.string name] => .ok ((env name).getD [])
  | .reference _ [.string name, .symbol operator, .literal _ word] =>
    modifiedText operator name (env name) (evaluateAll env word)
  | token => .ok token.value

/-- The text that parts stand for, from left to right. The first failure ends it. -/
def evaluateAll (env : Environment) : List Token → Except UnsetVariable Text
  | [] => .ok []
  | token :: tokens => do
    let text ← evaluate env token
    let others ← evaluateAll env tokens
    return text ++ others

end

end Token

/-- The table of the modifiers is what expansion goes by. -/
theorem expansion_modified (m : Modifier) (name : Text) (word : List Token) (env : Environment)
    (text : Except UnsetVariable Text) :
    Reference.expansion ⟨true, [.string name, .symbol m.symbol, .literal none word]⟩ env text =
      modifiedText m.symbol name (env name) text := by
  have found : Reference.modifier? ⟨true, [.string name, .symbol m.symbol, .literal none word]⟩ =
      some m := by
    simp [Reference.modifier?]
  have named : Reference.name ⟨true, [.string name, .symbol m.symbol, .literal none word]⟩ =
      name := rfl
  rw [Reference.expansion, found, named]
  obtain ⟨use, colon⟩ := m
  cases use <;> cases colon <;> rcases env name with _ | _ | ⟨c, t⟩ <;> rfl

/-! ## Expansion and evaluation -/

open Token

/-- If the expansion of each part has the text that the part evaluates to, the same is true of them
all. -/
theorem expandParts_map {env : Environment} {f : Token → Text} {ts : List Token}
    (h : ∀ t ∈ ts, (expandPart env t).map f = evaluate env t) :
    (expandParts env ts).map (List.flatMap f) = evaluateAll env ts := by
  induction ts with
  | nil => rfl
  | cons t ts ih =>
    obtain ⟨first, others⟩ := List.forall_mem_cons.mp h
    rw [expandParts, evaluateAll, ← first, ← ih others]
    cases expandPart env t with
    | error unset => rfl
    | ok part => cases expandParts env ts <;> rfl

/-- The text of one part of an expanded word. -/
def textInWord (t : Token) : Text := wordText [t]

theorem wordText_eq (ts : List Token) : wordText ts = ts.flatMap textInWord := by
  induction ts with
  | nil => rfl
  | cons t ts ih =>
    have split : wordText (t :: ts) = textInWord t ++ wordText ts := by
      unfold textInWord wordText
      rw [List.filter_cons, List.filter_singleton]
      split <;> simp
    rw [split, ih, List.flatMap_cons]

theorem valueAll_eq (ts : List Token) : valueAll ts = ts.flatMap value := by
  induction ts with
  | nil => rfl
  | cons t ts ih => rw [valueAll, ih, List.flatMap_cons]

/-- A part of content expands to the text that it evaluates to, in every reading of tokens that
takes strings as they are and leaves line continuations out. -/
theorem Part.expandPart_map {rules : ContentRules} {t : Token} (h : Part rules t)
    (env : Environment) {f : Token → Text} (strings : ∀ text, f (.string text) = text)
    (breaks : ∀ children, f (.continuation children) = []) :
    (expandPart env t).map f = evaluate env t := by
  induction h generalizing f with
  | @string rules text _ _ => exact congrArg Except.ok (strings text)
  | @continuation rules children _ => exact congrArg Except.ok (breaks children)
  | bare _ => exact congrArg Except.ok (strings _)
  | braced _ => exact congrArg Except.ok (strings _)
  | @modified rules name m word _ _ _ ih =>
    -- the word is read by its text, and that is one of the readings
    have inWord : (expandParts env word).map wordText = evaluateAll env word := by
      have texts : wordText = List.flatMap textInWord := funext wordText_eq
      rw [texts]
      exact expandParts_map fun t ht => ih t ht List.append_nil fun _ => rfl
    have expanded : expandPart env
        (.reference true [.string name, .symbol m.symbol, .literal none word]) =
          (modifiedText m.symbol name (env name) (evaluateAll env word)).map Token.string := by
      rw [← inWord, ← expansion_modified m name word]
      rfl
    rw [expanded]
    show _ = modifiedText m.symbol name (env name) (evaluateAll env word)
    cases modifiedText m.symbol name (env name) (evaluateAll env word) with
    | error unset => rfl
    | ok text => exact congrArg Except.ok (strings text)

/-- Content expands to parts with the value that it evaluates to, or fails as its evaluation
does. -/
theorem Part.evaluateAll_eq {rules : ContentRules} {ts : List Token} (h : ∀ t ∈ ts, Part rules t)
    (env : Environment) : evaluateAll env ts = (expandParts env ts).map valueAll := by
  have partwise (t : Token) (ht : t ∈ ts) : (expandPart env t).map value = evaluate env t :=
    (h t ht).expandPart_map env (fun _ => rfl) fun _ => rfl
  have values : valueAll = List.flatMap value := funext valueAll_eq
  rw [values, expandParts_map partwise]

/-! ## What expansion leaves -/

/-- The token is a reference to a variable. -/
def Token.isReference : Token → Bool
  | .reference _ _ => true
  | _ => false

theorem forall_mem_prependText {P : Token → Prop} (strings : ∀ text, P (.string text)) (text : Text)
    {ts : List Token} : (∀ t ∈ prependText text ts, P t) ↔ ∀ t ∈ ts, P t := by
  unfold prependText
  split
  · simp [strings]
  · split
    · rfl
    · simp [strings]

/-- Joining strings concerns nothing but strings. -/
theorem forall_mem_mergeStrings {P : Token → Prop} (strings : ∀ text, P (.string text))
    {ts : List Token} : (∀ t ∈ mergeStrings ts, P t) ↔ ∀ t ∈ ts, P t := by
  induction ts with
  | nil => rfl
  | cons t ts ih =>
    rw [List.forall_mem_cons, ← ih]
    cases t with
    | node kind children => exact List.forall_mem_cons
    | leaf kind text =>
      cases kind with
      | string =>
        rw [mergeStrings_string, forall_mem_prependText strings]
        exact (and_iff_right (strings text)).symm
      | _ => exact List.forall_mem_cons

theorem mergeStrings_prependText (text : Text) {ts : List Token} (h : mergeStrings ts = ts) :
    mergeStrings (prependText text ts) = prependText text ts := by
  have joins (text : Text) : mergeStrings (.string text :: ts) = prependText text ts := by
    rw [mergeStrings_string, h]
  unfold prependText
  split
  · next more others =>
    -- the rest begins with a string, and the text goes into it
    have first : prependText more (mergeStrings others) = .string more :: others := h
    rw [mergeStrings_string, ← prependText_prependText, first]
    rfl
  · next notString =>
    split
    · exact h
    · next nonempty =>
      rw [joins]
      exact prependText_of_not_string (by simpa using nonempty) fun more hm => by
        obtain ⟨others, rfl⟩ := List.head?_eq_some_iff.mp hm
        exact notString more others rfl

/-- Strings are joined once. -/
theorem mergeStrings_mergeStrings (ts : List Token) :
    mergeStrings (mergeStrings ts) = mergeStrings ts := by
  induction ts with
  | nil => rfl
  | cons t ts ih =>
    cases t with
    | node kind children => exact congrArg (List.cons (Token.node kind children)) ih
    | leaf kind text =>
      cases kind with
      | string => exact mergeStrings_prependText text ih
      | _ => exact congrArg (List.cons _) ih

/-- Without references there is nothing to expand. -/
theorem expandParts_of_no_reference (env : Environment) {ts : List Token}
    (h : ∀ t ∈ ts, t.isReference = false) : expandParts env ts = .ok ts := by
  induction ts with
  | nil => rfl
  | cons t ts ih =>
    obtain ⟨first, others⟩ := List.forall_mem_cons.mp h
    have here : expandPart env t = .ok t := by
      cases t with
      | leaf kind text => rfl
      | node kind children =>
        cases kind with
        | reference braced => cases first
        | _ => rfl
    rw [expandParts, here, ih others]
    rfl

/-- A reference becomes a string, and any other part stays as it is. -/
theorem expandPart_cases {env : Environment} {t part : Token} (h : expandPart env t = .ok part) :
    (t.isReference = true ∧ ∃ text, part = .string text) ∨ (t.isReference = false ∧ part = t) := by
  cases t with
  | leaf kind text =>
    cases h
    exact .inr ⟨rfl, rfl⟩
  | node kind children =>
    cases kind with
    | reference braced =>
      rw [expandPart] at h
      cases hw : Reference.expansion ⟨braced, children⟩ env (expandWord env children) with
      | error unset =>
        rw [hw] at h
        cases h
      | ok text =>
        rw [hw] at h
        cases h
        exact .inl ⟨rfl, text, rfl⟩
    | _ =>
      cases h
      exact .inr ⟨rfl, rfl⟩

theorem expandPart_no_reference {env : Environment} {t part : Token}
    (h : expandPart env t = .ok part) : part.isReference = false := by
  rcases expandPart_cases h with ⟨-, text, rfl⟩ | ⟨plain, rfl⟩
  · rfl
  · exact plain

theorem expandParts_cons_eq_ok {env : Environment} {t : Token} {ts parts : List Token} :
    expandParts env (t :: ts) = .ok parts ↔ ∃ part others,
      expandPart env t = .ok part ∧ expandParts env ts = .ok others ∧ parts = part :: others := by
  rw [expandParts]
  cases expandPart env t with
  | error unset => simp [bind, Except.bind]
  | ok part =>
    cases expandParts env ts with
    | error unset => simp [bind, Except.bind]
    | ok others => simp [bind, Except.bind, pure, Except.pure, eq_comm]

theorem expandParts_no_reference {env : Environment} {ts parts : List Token}
    (h : expandParts env ts = .ok parts) : ∀ t ∈ parts, t.isReference = false := by
  induction ts generalizing parts with
  | nil =>
    cases h
    simp
  | cons t ts ih =>
    obtain ⟨part, others, hp, hs, rfl⟩ := expandParts_cons_eq_ok.mp h
    exact List.forall_mem_cons.mpr ⟨expandPart_no_reference hp, ih hs⟩

/-- In single quotes the parts stay as they are; otherwise they are expanded and their strings are
joined. -/
theorem expandWithin_eq_ok {env : Environment} {quote : Option Quote}
    {children parts : List Token} :
    expandWithin env quote children = .ok parts ↔
      (quote = some .single ∧ parts = children) ∨
        (quote ≠ some .single ∧ ∃ expanded, expandParts env children = .ok expanded ∧
          parts = mergeStrings expanded) := by
  rw [expandWithin]
  by_cases single : quote = some .single
  · simp [single, eq_comm]
  · cases expandParts env children with
    | error unset => simp [single, Except.map]
    | ok expanded => simp [single, Except.map, eq_comm]

/-- Parts without references stay as they are in any quote, as long as their strings are joined. -/
theorem expandWithin_of_no_reference (env : Environment) (quote : Option Quote) {ts : List Token}
    (h : ∀ t ∈ ts, t.isReference = false) (joined : mergeStrings ts = ts) :
    expandWithin env quote ts = .ok ts := by
  rw [expandWithin_eq_ok]
  by_cases single : quote = some .single
  · exact .inl ⟨single, rfl⟩
  · exact .inr ⟨single, ts, expandParts_of_no_reference env h, joined.symm⟩

/-- What expansion leaves is left by every other expansion. -/
theorem expandWithin_settled {env : Environment} {quote : Option Quote}
    {children parts : List Token} (h : expandWithin env quote children = .ok parts)
    (env' : Environment) : expandWithin env' quote parts = .ok parts := by
  rcases expandWithin_eq_ok.mp h with ⟨single, -⟩ | ⟨-, expanded, hp, rfl⟩
  · exact expandWithin_eq_ok.mpr (.inl ⟨single, rfl⟩)
  · refine expandWithin_of_no_reference env' quote ?_ (mergeStrings_mergeStrings expanded)
    exact (forall_mem_mergeStrings fun _ => rfl).mpr (expandParts_no_reference hp)

end DockerfileSyntax
