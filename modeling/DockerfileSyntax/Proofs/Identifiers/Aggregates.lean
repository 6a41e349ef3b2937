import DockerfileSyntax.Proofs.Identifiers

/-!
# Identifiers with references

An identifier whose runs of characters alternate with references is one such part after the other,
as long as there are any: `run_identifierContent_eq_some`. At each place a reference is tried first.
-/

namespace DockerfileSyntax

open Grammar DockerfileSyntax.Parser

/-! ## References -/

/-- The last character of a reference is a brace or a character of names. -/
theorem Part.exists_last {rules : ContentRules} {braced : Bool} {children : List Token}
    (h : Part rules (.reference braced children)) :
    ∃ s d, (Token.reference braced children).render = s ++ [d] ∧
      (d = '\x7d' ∨ isVariableNameChar d = true) := by
  cases h with
  | @bare _ name isName =>
    cases name using List.reverseRecOn with
    | nil => cases isName
    | append_singleton name last _ =>
      exact ⟨'$' :: name, last, by simp, .inr (isVariableNameChar_of_mem isName last (by simp))⟩
  | braced _ => exact ⟨_, '\x7d', rfl, .inl rfl⟩
  | modified _ _ _ _ => exact ⟨_, '\x7d', rfl, .inl rfl⟩

/-- A reference is read from a text that begins with a dollar sign. -/
theorem exists_of_run_reference {e : Char} {found : Reference} {s r : Text}
    (h : run (reference e) s = some (found, r)) : ∃ t, s = '$' :: t ∧ r.length < s.length := by
  obtain ⟨m, text⟩ := render_reference_cons found.braced found.children
  have whole : s = found.toToken.render ++ r := (lossless_reference e).append_eq h
  rw [Reference.toToken, text] at whole
  refine ⟨m ++ r, whole, ?_⟩
  rw [whole]
  simp only [List.length_append, List.length_cons]
  omega

/-! ## Parts -/

/-- A reference or a run of characters. -/
def aggregatePart (rules : NameRules) (quote : Option Quote) : Parser (List Token) :=
  firstOf [
    do let found ← reference rules.escape; return [found.toToken],
    nameRun rules (excludedIn quote)]

instance regular_aggregatePart (rules : NameRules) (quote : Option Quote) :
    Regular (aggregatePart rules quote) := by
  unfold aggregatePart
  infer_instance

variable {rules : NameRules} {quote : Option Quote} {s r : Text} {ts : List Token}

theorem run_aggregatePart_eq_some :
    run (aggregatePart rules quote) s = some (ts, r) ↔
      (∃ found, run (reference rules.escape) s = some (found, r) ∧ ts = [found.toToken]) ∨
        (run (reference rules.escape) s = none ∧
          run (nameRun rules (excludedIn quote)) s = some (ts, r)) := by
  rw [aggregatePart, run_firstOf_pair, Option.or_eq_some_iff]
  have single : run (do let found ← reference rules.escape; return [found.toToken]) s =
      some (ts, r) ↔
      ∃ found, run (reference rules.escape) s = some (found, r) ∧ ts = [found.toToken] := by
    simp only [run_bind_eq_some, run_pure_eq_some]
    constructor
    · rintro ⟨found, m, read, rfl, rfl⟩
      exact ⟨found, read, rfl⟩
    · rintro ⟨found, read, rfl⟩
      exact ⟨found, r, read, rfl, rfl⟩
  have fails : run (do let found ← reference rules.escape; return [found.toToken]) s = none ↔
      run (reference rules.escape) s = none := by
    rw [run_bind]
    cases run (reference rules.escape) s with
    | none => simp
    | some found => simp [run_pure]
  rw [single, fails]

theorem lossless_aggregatePart (rules : NameRules) (quote : Option Quote) :
    Lossless (aggregatePart rules quote) Token.renderAll := by
  have part : Lossless (do let found ← reference rules.escape; return [found.toToken])
      Token.renderAll :=
    Keeps.bind (lossless_reference _) fun found => Keeps.pure (by simp)
  exact part.firstOf_pair (lossless_nameRun ..)

theorem length_lt_of_run_aggregatePart (h : run (aggregatePart rules quote) s = some (ts, r)) :
    r.length < s.length := by
  rcases run_aggregatePart_eq_some.mp h with ⟨found, read, -⟩ | ⟨-, read⟩
  · obtain ⟨t, -, shorter⟩ := exists_of_run_reference read
    exact shorter
  · obtain ⟨head, items, m, rfl, -, repeated, -⟩ := run_nameRun_eq_some.mp read
    exact Nat.lt_succ_of_le (Regular.length_le repeated)

/-- The parts are read one after the other, as long as there are any, and there is at least one. -/
theorem run_identifierContent_eq_some :
    run (identifierContent rules quote) s = some (ts, r) ↔
      ∃ parts, Steps (aggregatePart rules quote) s parts r ∧
        run (aggregatePart rules quote) r = none ∧ parts ≠ [] ∧
        ts = mergeStrings parts.flatten := by
  have many1 {parts : List (List Token)} :
      run (many1 (aggregatePart rules quote)) s = some (parts, r) ↔
        Steps (aggregatePart rules quote) s parts r ∧
          run (aggregatePart rules quote) r = none ∧ parts ≠ [] := by
    rw [run_many1_eq_some]
    constructor
    · rintro ⟨first, m, others, read, repeated, rfl⟩
      have stop := run_eq_none_of_run_many length_lt_of_run_aggregatePart repeated
      have steps := (run_many_eq_some.mp repeated).1
      exact ⟨.cons read (length_lt_of_run_aggregatePart read) steps, stop, List.cons_ne_nil _ _⟩
    · rintro ⟨steps, stop, nonempty⟩
      cases steps with
      | nil => exact absurd rfl nonempty
      | cons read _ others =>
        have repeated := run_many_of_steps others (run_many_of_none stop)
        rw [List.append_nil] at repeated
        exact ⟨_, _, _, read, repeated, rfl⟩
  constructor
  · intro h
    obtain ⟨parts, m, read, done⟩ := run_bind_eq_some.mp h
    obtain ⟨rfl, rfl⟩ := run_pure_eq_some.mp done
    obtain ⟨steps, stop, nonempty⟩ := many1.mp read
    exact ⟨parts, steps, stop, nonempty, rfl⟩
  · rintro ⟨parts, steps, stop, nonempty, rfl⟩
    exact run_bind_eq_some.mpr ⟨parts, r, many1.mpr ⟨steps, stop, nonempty⟩, rfl⟩

/-- The content begins with a part. -/
theorem exists_first_part (h : run (identifierContent rules quote) s = some (ts, r)) :
    ∃ item m others, run (aggregatePart rules quote) s = some (item, m) ∧
      Steps (aggregatePart rules quote) m others r := by
  obtain ⟨parts, steps, -, nonempty, -⟩ := run_identifierContent_eq_some.mp h
  cases steps with
  | nil => exact absurd rfl nonempty
  | cons read _ others => exact ⟨_, _, _, read, others⟩

/-- What was read as an identifier is its content within the quotes that it has. -/
theorem run_identifierAggregate_sound {i : Identifier}
    (h : run (identifierAggregate rules) s = some (i, r)) :
    ∃ t, s = Quote.mark i.quote ++ t ∧
      run (identifierContent rules i.quote) t = some (i.children, Quote.mark i.quote ++ r) := by
  obtain ⟨⟨quote, children⟩, m, hq, h⟩ := run_bind_eq_some.mp h
  obtain ⟨rfl, rfl⟩ := run_pure_eq_some.mp h
  obtain ⟨t, hc, hs⟩ := run_inOptionalQuotes_sound hq
  exact ⟨t, hs, hc⟩

end DockerfileSyntax
