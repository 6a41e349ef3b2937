import DockerfileSyntax.Proofs.Content.Evaluation
import DockerfileSyntax.Proofs.Edits

/-!
# Content that goes on below

A line continuation between two contents of a literal makes one content of them, whatever they end
and begin with: it begins with an escape character, which goes on with no name and escapes nothing
before it, and nothing that may begin content is a line continuation itself.

1. `Word.below`: the parts are those of the first content, the line continuation and those of the
   second.
2. `Literal.map_value_resolve_below`: such parts expand one content after the other.
3. `line_continuations_are_transparent`: so are they read, and the value is that of both.
-/

namespace DockerfileSyntax

open Grammar DockerfileSyntax.Parser Token

/-! ## Words -/

theorem mayPrecede_break (t : Token) (k : Continuation) : mayPrecede t k.toToken = true :=
  mayPrecede_of_not_string t nofun

/-- One word below another is a word. -/
theorem Word.below {rules : ContentRules} {ts us : List Token} (above : Word rules ts)
    (below : Word rules us) (nonempty : ts ≠ []) (nonempty' : us ≠ []) {k : Continuation}
    (isBreak : k.IsBreak rules.escape) : Word rules (ts ++ k.toToken :: us) := by
  refine ⟨?_, ⟨?_, fun t ht => ?_, fun t ht => ?_⟩⟩
  · have part : Part rules k.toToken := .continuation isBreak
    exact List.forall_mem_append.mpr ⟨above.parts, List.forall_mem_cons.mpr ⟨part, below.parts⟩⟩
  · have behind : (k.toToken :: us).IsChain fun s t => mayPrecede s t = true :=
      List.isChain_cons.mpr ⟨fun _ _ => rfl, below.joined.neighbours⟩
    refine List.isChain_append.mpr ⟨above.joined.neighbours, behind, fun s _ t ht => ?_⟩
    obtain rfl : k.toToken = t := Option.some.inj ht
    exact mayPrecede_break s k
  · rw [List.head?_append_of_ne_nil _ nonempty] at ht
    exact above.joined.first t ht
  · rw [List.getLast?_append_of_ne_nil _ (List.cons_ne_nil _ _),
      List.getLast?_cons_of_ne_nil nonempty'] at ht
    exact below.joined.last t ht

/-! ## Expansion -/

theorem expandParts_append (env : Environment) (ts us : List Token) :
    expandParts env (ts ++ us) = do
      let first ← expandParts env ts
      let second ← expandParts env us
      return first ++ second := by
  induction ts with
  | nil =>
    rw [List.nil_append, expandParts]
    cases expandParts env us <;> rfl
  | cons t ts ih =>
    rw [List.cons_append, expandParts, expandParts, ih]
    cases expandPart env t with
    | error unset => rfl
    | ok part =>
      cases expandParts env ts with
      | error unset => rfl
      | ok parts => cases expandParts env us <;> rfl

namespace Literal

variable {e : Char} {spacing : Spacing} {excluded : List Char} {quote : Option Quote}
  {ts us : List Token} {k : Continuation}

/-- Outside single quotes, a literal resolves to the value of its expanded parts. -/
theorem map_value_resolve_expands (expands : quote ≠ some .single) (env : Environment) :
    (resolve ⟨quote, ts⟩ env).map value = (expandParts env ts).map valueAll := by
  show ((expandWithin env quote ts).map _).map value = _
  rw [expandWithin, if_neg expands]
  cases expandParts env ts with
  | error unset => rfl
  | ok parts => exact congrArg Except.ok (valueAll_mergeStrings parts)

/-- Two contents, one below the other, resolve one after the other. -/
theorem map_value_resolve_below (expands : quote ≠ some .single) (env : Environment) :
    (resolve ⟨quote, ts ++ k.toToken :: us⟩ env).map value = do
      let first ← (resolve ⟨quote, ts⟩ env).map value
      let second ← (resolve ⟨quote, us⟩ env).map value
      return first ++ second := by
  rw [map_value_resolve_expands expands, map_value_resolve_expands expands,
    map_value_resolve_expands expands, expandParts_append, expandParts]
  have kept : expandPart env k.toToken = .ok k.toToken := rfl
  rw [kept]
  cases expandParts env ts with
  | error unset => rfl
  | ok first =>
    cases expandParts env us with
    | error unset => rfl
    | ok second => exact congrArg Except.ok (valueAll_append first (k.toToken :: second))

theorem WellFormed.below (above : WellFormed e spacing excluded ⟨quote, ts⟩)
    (below : WellFormed e spacing excluded ⟨quote, us⟩) (nonempty : ts ≠ []) (nonempty' : us ≠ [])
    (isBreak : k.IsBreak e) : WellFormed e spacing excluded ⟨quote, ts ++ k.toToken :: us⟩ := by
  cases quote with
  | some quote => exact Word.below above below nonempty nonempty' isBreak
  | none => exact ⟨above.1.below below.1 nonempty nonempty' isBreak, by simp⟩

end Literal

/-! ## Reading -/

/-- A line continuation between two contents of a literal is transparent: the parts are those of the
first, the line continuation and those of the second, the value is that of the first and that of the
second, and so is what the literal resolves to, unless single quotes keep it. -/
theorem line_continuations_are_transparent {e : Char} (he : IsEscape e) {excluded : List Char}
    {quote : Option Quote} {a b : Text} (nonempty : a ≠ []) (nonempty' : b ≠ [])
    {ts us : List Token} (above : complete (literalContent e .ends excluded quote) a = .ok ts)
    (below : complete (literalContent e .ends excluded quote) b = .ok us) {k : Continuation}
    (isBreak : k.IsBreak e) :
    complete (literalContent e .ends excluded quote) (a ++ k.toToken.render ++ b) =
        .ok (ts ++ k.toToken :: us) ∧
      Literal.value ⟨quote, ts ++ k.toToken :: us⟩ =
        Literal.value ⟨quote, ts⟩ ++ Literal.value ⟨quote, us⟩ ∧
      (quote ≠ some .single → ∀ env,
        (Literal.resolve ⟨quote, ts ++ k.toToken :: us⟩ env).map Literal.value = do
          let first ← (Literal.resolve ⟨quote, ts⟩ env).map Literal.value
          let second ← (Literal.resolve ⟨quote, us⟩ env).map Literal.value
          return first ++ second) := by
  have reads {value : Text} (nonempty : value ≠ []) (children : List Token) :
      complete (literalContent e .ends excluded quote) value = .ok children ↔
        Token.renderAll children = value ∧ Literal.WellFormed e .ends excluded ⟨quote, children⟩ :=
    Literal.complete_literalContent_eq_ok he (by decide) nonempty
  obtain ⟨text, wellFormed⟩ := (reads nonempty ts).mp above
  obtain ⟨text', wellFormed'⟩ := (reads nonempty' us).mp below
  have some : ts ≠ [] := by
    rintro rfl
    exact nonempty text.symm
  have some' : us ≠ [] := by
    rintro rfl
    exact nonempty' text'.symm
  have joined : a ++ k.toToken.render ++ b ≠ [] := by simp [nonempty]
  refine ⟨(reads joined _).mpr ⟨?_, wellFormed.below wellFormed' some some' isBreak⟩, ?_, ?_⟩
  · rw [renderAll_append, renderAll, text, text', List.append_assoc]
  · exact valueAll_append ts (k.toToken :: us)
  · exact fun expands env => Literal.map_value_resolve_below expands env

/-- Between `a$A` and `B`, a line continuation keeps the name of the variable from going on: with
the value `1` of `A`, the content resolves to `a1B`. -/
theorem line_continuations_are_transparent_sample :
    (Continuation.broken '`' [' '] ['\n']).IsBreak '`' ∧
    complete (literalContent '`' .ends [':'] none) "a$A` \nB".toList =
      .ok [.string ['a'], .reference false [.string ['A']],
        (Continuation.broken '`' [' '] ['\n']).toToken, .string ['B']] ∧
    ∀ env : Environment, env ['A'] = some ['1'] →
      (Literal.resolve ⟨none, [.string ['a'], .reference false [.string ['A']],
        (Continuation.broken '`' [' '] ['\n']).toToken, .string ['B']]⟩ env).map Literal.value =
        .ok ['a', '1', 'B'] := by
  have isBreak : (Continuation.broken '`' [' '] ['\n']).IsBreak '`' :=
    ⟨[' '], ['\n'], List.forall_mem_singleton.mpr rfl, by decide, rfl⟩
  have above : complete (literalContent '`' .ends [':'] none) ['a', '$', 'A'] =
      .ok [.string ['a'], .reference false [.string ['A']]] :=
    complete_eq_ok.mpr (by decide +kernel)
  have below : complete (literalContent '`' .ends [':'] none) ['B'] = .ok [.string ['B']] :=
    complete_eq_ok.mpr (by decide +kernel)
  obtain ⟨read, -, resolved⟩ :=
    line_continuations_are_transparent (.inr rfl) (by simp) (by simp) above below isBreak
  have bare : (none : Option Quote) ≠ some .single := nofun
  refine ⟨isBreak, read, fun env isOne => (resolved bare env).trans ?_⟩
  rw [Literal.map_value_resolve_expands bare, Literal.map_value_resolve_expands bare]
  have one : expandParts env [.string ['a'], .reference false [.string ['A']]] =
      .ok [.string ['a'], .string ['1']] := by
    show _ = Except.ok [Token.string ['a'], .string ((some ['1']).getD [])]
    rw [← isOne]
    rfl
  rw [one]
  rfl

end DockerfileSyntax
