import DockerfileSyntax.KeyValue
import DockerfileSyntax.Proofs.Content.Breaks

/-!
# Reading keys and values

A key and a value are read one after the other, with a separator between them. A separator is read
back before any text that does not begin with white space, and so keys and values can be looked at
by themselves: `run_keyValue_eq_some` and `run_assigning_of_wellFormed`.
-/

namespace DockerfileSyntax

open Grammar DockerfileSyntax.Parser

/-! ## Separators -/

/-- White space that separates is not empty and ends no line. -/
def Separator.WellFormed : Separator → Prop
  | equals | colon => True
  | blanks gap => gap ≠ [] ∧ ∀ c ∈ gap, isInlineBlank c = true

namespace Grammar

/-- The separators that are one character. -/
def punctuation : Parser Separator :=
  firstOf [
    do eat ['=']; return Separator.equals,
    do eat [':']; return Separator.colon]

theorem separator_eq :
    separator = do
      match ← optional punctuation with
      | some found => return found
      | none =>
        let gap ← blanks
        if gap.isEmpty then fail .separator else return .blanks gap := rfl

theorem run_punctuation_eq_some {s r : Text} {between : Separator} :
    run punctuation s = some (between, r) ↔
      (between = .equals ∧ s = '=' :: r) ∨ (between = .colon ∧ s = ':' :: r) := by
  rw [punctuation, run_firstOf_pair, Option.or_eq_some_iff]
  constructor
  · rintro (h | ⟨-, h⟩)
    · obtain ⟨u, m, hm, h⟩ := run_bind_eq_some.mp h
      obtain ⟨rfl, rfl⟩ := run_pure_eq_some.mp h
      exact .inl ⟨rfl, run_eat_eq_some.mp hm⟩
    · obtain ⟨u, m, hm, h⟩ := run_bind_eq_some.mp h
      obtain ⟨rfl, rfl⟩ := run_pure_eq_some.mp h
      exact .inr ⟨rfl, run_eat_eq_some.mp hm⟩
  · rintro (⟨rfl, rfl⟩ | ⟨rfl, rfl⟩)
    · exact .inl (run_bind_eq_some.mpr ⟨(), r, run_eat_append ['='] r, rfl⟩)
    · refine .inr ⟨?_, run_bind_eq_some.mpr ⟨(), r, run_eat_append [':'] r, rfl⟩⟩
      rw [run_bind, run_eat_of_head_ne (by simp), Option.bind_none]

theorem run_separator_sound {s r : Text} {between : Separator}
    (h : run separator s = some (between, r)) : between.WellFormed := by
  rw [separator_eq] at h
  rcases run_optional_bind_eq_some.mp h with ⟨found, m, hf, h⟩ | ⟨-, h⟩
  · obtain ⟨rfl, -⟩ := run_pure_eq_some.mp h
    rcases run_punctuation_eq_some.mp hf with ⟨rfl, -⟩ | ⟨rfl, -⟩ <;> trivial
  · obtain ⟨gap, m, hg, h⟩ := run_bind_eq_some.mp h
    split at h
    · cases h
    · next nonempty =>
      obtain ⟨rfl, -⟩ := run_pure_eq_some.mp h
      exact ⟨by simpa using nonempty, (run_takeWhile_eq_some hg).1⟩

/-- A separator is read back before a text that does not begin with white space. -/
theorem run_separator_of_wellFormed {between : Separator} (h : between.WellFormed) {r : Text}
    (notBlank : ∀ c, r.head? = some c → isInlineBlank c = false) :
    run separator (between.toToken.render ++ r) = some (between, r) := by
  rw [separator_eq, run_optional_bind_eq_some]
  cases between with
  | equals => exact .inl ⟨.equals, r, run_punctuation_eq_some.mpr (.inl ⟨rfl, rfl⟩), rfl⟩
  | colon => exact .inl ⟨.colon, r, run_punctuation_eq_some.mpr (.inr ⟨rfl, rfl⟩), rfl⟩
  | blanks gap =>
    obtain ⟨nonempty, blank⟩ := h
    have read := run_blanks_append blank notBlank
    refine .inr ⟨?_, run_bind_eq_some.mpr ⟨gap, r, read, ?_⟩⟩
    · -- neither of the two characters is white space
      obtain ⟨c, gap, rfl⟩ := List.exists_cons_of_ne_nil nonempty
      have isBlank : isInlineBlank c = true := blank c List.mem_cons_self
      rw [Option.eq_none_iff_forall_ne_some]
      rintro ⟨found, m⟩ hf
      rcases run_punctuation_eq_some.mp hf with ⟨-, hs⟩ | ⟨-, hs⟩
      · rw [(List.cons.inj hs).1] at isBlank
        exact absurd isBlank (by decide)
      · rw [(List.cons.inj hs).1] at isBlank
        exact absurd isBlank (by decide)
    · rw [if_neg (by simpa using nonempty)]
      rfl

theorem run_separator_nil : run separator [] = none := by
  decide +kernel

/-! ## Pairs -/

section Assigned

variable {α : Type}

/-- A separator and what stands behind it. -/
def assigning (value : Parser α) : Parser (Separator × α) := do
  let between ← separator
  let found ← value
  return (between, found)

instance regular_assigning (value : Parser α) [Regular value] :
    Regular (assigning value) := by
  unfold assigning
  infer_instance

theorem run_assigning_eq_some {value : Parser α} [Regular value] {s r : Text}
    {between : Separator} {found : α} :
    run (assigning value) s = some ((between, found), r) ↔
      ∃ m, run separator s = some (between, m) ∧ run value m = some (found, r) := by
  rw [assigning]
  constructor
  · intro h
    obtain ⟨between', m, hb, h⟩ := run_bind_eq_some.mp h
    obtain ⟨found', m', hf, h⟩ := run_bind_eq_some.mp h
    obtain ⟨eq, rfl⟩ := run_pure_eq_some.mp h
    cases eq
    exact ⟨m, hb, hf⟩
  · rintro ⟨m, hb, hf⟩
    exact run_bind_eq_some.mpr ⟨between, m, hb, run_bind_eq_some.mpr ⟨found, r, hf, rfl⟩⟩

/-- Behind the end of a key that is the end of the text, there is no value. -/
theorem run_assigning_nil (value : Parser α) [Regular value] :
    run (assigning value) [] = none := by
  rw [assigning, run_bind, run_separator_nil, Option.bind_none]

end Assigned

section Pairs

variable {K V : ValueKind}

/-- A key and perhaps a value, behind the mark of a flag. -/
def unmarked (e : Char) (isFlag : Bool) (key : Parser K.Carrier) (value : Parser V.Carrier) :
    Parser (KeyValue K V) := do
  let keyToken ← key
  let assigned ← optional (assigning value)
  return { isFlag, keyToken, assigned, escape := e }

instance regular_unmarked (e : Char) (isFlag : Bool) (key : Parser K.Carrier)
    (value : Parser V.Carrier) [Regular key] [Regular value] :
    Regular (unmarked e isFlag key value) := by
  unfold unmarked
  infer_instance

theorem run_unmarked_eq_some {e : Char} {isFlag : Bool} {key : Parser K.Carrier}
    {value : Parser V.Carrier} [Regular key] [Regular value] {s r : Text} {p : KeyValue K V} :
    run (unmarked e isFlag key value) s = some (p, r) ↔
      p.isFlag = isFlag ∧ p.escape = e ∧ ∃ m, run key s = some (p.keyToken, m) ∧
        run (optional (assigning value)) m = some (p.assigned, r) := by
  rw [unmarked]
  constructor
  · intro h
    obtain ⟨keyToken, m, hk, h⟩ := run_bind_eq_some.mp h
    obtain ⟨assigned, m', ha, h⟩ := run_bind_eq_some.mp h
    obtain ⟨rfl, rfl⟩ := run_pure_eq_some.mp h
    exact ⟨rfl, rfl, m, hk, ha⟩
  · rintro ⟨rfl, rfl, m, hk, ha⟩
    exact run_bind_eq_some.mpr ⟨p.keyToken, m, hk, run_bind_eq_some.mpr ⟨p.assigned, r, ha, rfl⟩⟩

/-- A pair is read part by part. -/
theorem run_keyValue_eq_some {e : Char} {isFlag : Bool} {key : Parser K.Carrier}
    {value : Parser V.Carrier} [Regular key] [Regular value] {s r : Text} {p : KeyValue K V} :
    run (keyValue e isFlag key value) s = some (p, r) ↔
      p.isFlag = isFlag ∧ p.escape = e ∧ ∃ t m, s = (if isFlag then flagMark else []) ++ t ∧
        run key t = some (p.keyToken, m) ∧
        run (optional (assigning value)) m = some (p.assigned, r) := by
  cases isFlag with
  | true =>
    have marked : keyValue e true key value =
      (eat flagMark >>= fun _ => unmarked e true key value) := rfl
    rw [marked, run_bind_eq_some]
    constructor
    · rintro ⟨u, t, hm, h⟩
      obtain ⟨isFlag, escape, m, hk, ha⟩ := run_unmarked_eq_some.mp h
      exact ⟨isFlag, escape, t, m, run_eat_eq_some.mp hm, hk, ha⟩
    · rintro ⟨isFlag, escape, t, m, rfl, hk, ha⟩
      exact ⟨(), t, run_eat_append flagMark t,
        run_unmarked_eq_some.mpr ⟨isFlag, escape, m, hk, ha⟩⟩
  | false =>
    have same : keyValue e false key value = unmarked e false key value := rfl
    rw [same, run_unmarked_eq_some]
    simp

end Pairs

end Grammar

end DockerfileSyntax
