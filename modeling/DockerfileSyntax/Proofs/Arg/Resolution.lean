import DockerfileSyntax.Proofs.Arg.Values
import DockerfileSyntax.Proofs.Content.Evaluation

/-!
# Resolving a declaration

The value of a declaration resolves to what its content evaluates to, and where the evaluation fails
the declaration stays as it is. A value in single quotes stays as it is in any case. A name holds no
references, so that nothing else can fail or change.
-/

namespace DockerfileSyntax

open Grammar DockerfileSyntax.Parser Token

/-! ## Literals -/

section Literals

variable {e : Char} {spacing : Spacing} {excluded : List Char} {l : Literal}

theorem Literal.Readable.parts {allowEmpty : Bool} (h : l.Readable e excluded allowEmpty) :
    ∃ rules : ContentRules, rules.escape = e ∧ ∀ t ∈ l.children, Part rules t := by
  rcases h with ⟨-, rfl⟩ | wellFormed
  · exact ⟨.word e, rfl, by simp [Literal.empty]⟩
  · exact wellFormed.parts

/-- In single quotes nothing is expanded. -/
theorem Literal.resolve_single (env : Environment) (single : l.quote = some .single) :
    l.resolve env = .ok l := by
  obtain ⟨quote, children⟩ := l
  obtain rfl : quote = some .single := single
  rfl

/-- Outside single quotes, a literal resolves to one with the value that its content evaluates to.
That one stays as it is, whatever the variables are. -/
theorem Literal.resolve_of_evaluateAll {rules : ContentRules}
    (parts : ∀ t ∈ l.children, Part rules t) {env : Environment}
    (expands : l.quote ≠ some .single) {text : Text}
    (h : evaluateAll env l.children = .ok text) :
    ∃ l', l.resolve env = .ok l' ∧ l'.quote = l.quote ∧ l'.value = text ∧
      ∀ env', l'.resolve env' = .ok l' := by
  obtain ⟨quote, children⟩ := l
  rw [Part.evaluateAll_eq parts] at h
  cases hp : expandParts env children with
  | error unset =>
    rw [hp] at h
    cases h
  | ok expanded =>
    rw [hp] at h
    obtain rfl : Token.valueAll expanded = text := Except.ok.inj h
    have within : expandWithin env quote children = .ok (mergeStrings expanded) :=
      expandWithin_eq_ok.mpr (.inr ⟨expands, expanded, hp, rfl⟩)
    refine ⟨⟨quote, mergeStrings expanded⟩, ?_, rfl, valueAll_mergeStrings expanded, ?_⟩
    · show (expandWithin env quote children).map _ = _
      rw [within]
      rfl
    · intro env'
      show (expandWithin env' quote (mergeStrings expanded)).map _ = _
      rw [expandWithin_settled within env']
      rfl

theorem Literal.resolve_of_error {rules : ContentRules}
    (parts : ∀ t ∈ l.children, Part rules t) {env : Environment}
    (expands : l.quote ≠ some .single) {unset : UnsetVariable}
    (h : evaluateAll env l.children = .error unset) : l.resolve env = .error unset := by
  obtain ⟨quote, children⟩ := l
  rw [Part.evaluateAll_eq parts] at h
  cases hp : expandParts env children with
  | ok expanded =>
    rw [hp] at h
    cases h
  | error unset' =>
    rw [hp] at h
    obtain rfl : unset' = unset := Except.error.inj h
    show (expandWithin env quote children).map _ = _
    rw [expandWithin, if_neg expands, hp]
    rfl

end Literals

/-! ## Names -/

theorem LaterItem.no_reference {e : Char} {item : List Token} (h : LaterItem e item) :
    ∀ t ∈ item, t.isReference = false := by
  cases h with
  | escaped _ => simp [isReference]
  | char _ _ =>
    intro t ht
    rcases List.mem_append.mp ht with ht | ht
    · obtain ⟨k, -, rfl⟩ := List.mem_map.mp ht
      rfl
    · rw [List.mem_singleton.mp ht]
      rfl

/-- A name holds nothing to expand. -/
theorem IsName.resolve_eq {e : Char} {name : Identifier} (h : IsName e name.children)
    (env : Environment) : name.resolve env = .ok name := by
  obtain ⟨quote, children⟩ := name
  obtain ⟨head, items, -, all, rfl⟩ : IsName e children := h
  have plain : ∀ t ∈ mergeStrings (.string [head] :: items.flatten), t.isReference = false := by
    refine (forall_mem_mergeStrings fun _ => rfl).mpr (List.forall_mem_cons.mpr ⟨rfl, ?_⟩)
    intro t ht
    obtain ⟨item, hi, ht⟩ := List.mem_flatten.mp ht
    exact (all item hi).no_reference t ht
  show (expandWithin env quote _).map _ = _
  rw [expandWithin_of_no_reference env quote plain (mergeStrings_mergeStrings _)]
  rfl

/-! ## Declarations -/

namespace Arg

/-- Resolving a declaration whose name stays as it is resolves its value. If that fails, nothing is
changed. -/
theorem apply_resolve {env : Environment} {a : Arg} (name : a.name.resolve env = .ok a.name) :
    Edit.apply (resolve env) a =
      match a.value with
      | none => ⟨a, none⟩
      | some l =>
        match l.resolve env with
        | .ok l' => ⟨{ a with value := some l' }, none⟩
        | .error unset => ⟨a, some (.unset unset)⟩ := by
  obtain ⟨heading, found, value, trail, escape⟩ := a
  replace name : found.resolve env = .ok found := name
  unfold Edit.apply resolve
  rw [Edit.get_bind]
  dsimp only
  rw [name]
  cases value with
  | none => rfl
  | some l =>
    dsimp only [Option.mapM]
    cases l.resolve env <;> rfl

/-- A declaration that was read resolves as its value evaluates. Without a value, and where the
value is in single quotes, it stays as it is. Otherwise the new value is the text that the content
evaluates to, in the same quotes, and it stays whatever it is resolved with afterwards; or the
evaluation fails, and then that is the error and nothing is changed. -/
theorem resolve_eq_evaluation {e : Char} (he : IsEscape e) {text : Text} {a : Arg}
    (h : parse e text = .ok a) (env : Environment) :
    (a.value = none → Edit.apply (resolve env) a = ⟨a, none⟩) ∧
    ∀ l, a.value = some l →
      (l.quote = some .single → Edit.apply (resolve env) a = ⟨a, none⟩) ∧
      (l.quote ≠ some .single →
        (∀ t, evaluateAll env l.children = .ok t → ∃ l',
          Edit.apply (resolve env) a = ⟨{ a with value := some l' }, none⟩ ∧
          l'.quote = l.quote ∧ l'.value = t ∧ ∀ env', l'.resolve env' = .ok l') ∧
        ∀ unset, evaluateAll env l.children = .error unset →
          Edit.apply (resolve env) a = ⟨a, some (.unset unset)⟩) := by
  obtain ⟨sound, keeps⟩ := sound_of_parse he h
  rw [apply_resolve (sound.name.resolve_eq env)]
  constructor
  · intro noValue
    rw [noValue]
  · intro l stored
    rw [stored]
    dsimp only
    obtain ⟨rules, -, parts⟩ := (keeps.readable stored).parts
    refine ⟨?_, fun expands => ⟨?_, ?_⟩⟩
    · intro single
      rw [Literal.resolve_single env single]
      dsimp only
      rw [← stored]
    · intro t ht
      obtain ⟨l', resolved, quote, text, settled⟩ := Literal.resolve_of_evaluateAll parts expands ht
      rw [resolved]
      exact ⟨l', rfl, quote, text, settled⟩
    · intro unset hu
      rw [Literal.resolve_of_error parts expands hu]

/-- `ARG x=${A:-$B}c` has the value `1c` where `A` is not set and `B` is `1`. -/
theorem resolve_eq_evaluation_sample :
    ∃ a l', parse '\\' "ARG x=$\x7bA:-$B\x7dc".toList = .ok a ∧
      Edit.apply (resolve fun name => if name = ['B'] then some ['1'] else none) a =
        ⟨{ a with value := some l' }, none⟩ ∧ l'.value = ['1', 'c'] := by
  have read : (parse '\\' "ARG x=$\x7bA:-$B\x7dc".toList).toOption.map Arg.value =
      some (some ⟨none, [.reference true [.string ['A'], .symbol [':', '-'],
        .literal none [.reference false [.string ['B']]]], .string ['c']]⟩) := by
    decide +kernel
  obtain ⟨a, h, read⟩ := exists_of_computed read
  obtain ⟨-, onValue⟩ := resolve_eq_evaluation (.inl rfl) h fun name =>
    if name = ['B'] then some ['1'] else none
  obtain ⟨l', resolved, -, value, -⟩ :=
    ((onValue _ read).2 (by decide)).1 ['1', 'c'] rfl
  exact ⟨a, l', h, resolved, value⟩

end Arg

end DockerfileSyntax
