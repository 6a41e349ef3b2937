import DockerfileSyntax.Proofs.Content.Breaks

/-!
# Keywords

A keyword ends with its last letter, so that no text behind it changes how it is read. This needs an
escape character that is none of the letters: a letter behind line continuations is then not taken
for the beginning of one more.
-/

namespace DockerfileSyntax

namespace Grammar

open DockerfileSyntax.Parser

/-- A keyword whose letters are not the escape character looks at nothing behind it. -/
theorem run_keywordTail_of_run {e : Char} {what : Expectation} {letters : Text}
    (apart : ∀ letter ∈ letters, sameLetter e letter = false) {s m : Text} {ts : List Token}
    (h : run (keywordTail e what letters) s = some (ts, m)) (m' : Text) :
    run (keywordTail e what letters) (Token.renderAll ts ++ m') = some (ts, m') := by
  induction letters generalizing s m ts with
  | nil =>
    obtain ⟨rfl, rfl⟩ := run_pure_eq_some.mp h
    rfl
  | cons letter letters ih =>
    obtain ⟨notEscape, others⟩ := List.forall_mem_cons.mp apart
    obtain ⟨found, k, hf, h⟩ := run_bind_eq_some.mp h
    obtain ⟨more, k', hm, h⟩ := run_bind_eq_some.mp h
    obtain ⟨rfl, rfl⟩ := run_pure_eq_some.mp h
    obtain ⟨breaks, c, all, same, -, -, rfl⟩ := run_charBelow_eq_some.mp hf
    have differs : c ≠ e := by
      rintro rfl
      rw [same] at notEscape
      cases notEscape
    -- whatever follows, the letter does not begin one more line continuation
    have stop (t : Text) : run (continuation e) (c :: t) = none :=
      run_continuation_of_head_ne fun hc => differs (Option.some.inj hc)
    have first : run (charBelow e what (sameLetter · letter))
        (Token.renderAll (breaks.map Continuation.toToken ++ [.string [c]]) ++
          (Token.renderAll more ++ m')) =
        some (breaks.map Continuation.toToken ++ [.string [c]], Token.renderAll more ++ m') :=
      run_charBelow_eq_some.mpr ⟨breaks, c, all, same, stop _, by simp [breaksText], rfl⟩
    rw [Token.renderAll_append, List.append_assoc]
    exact run_bind_eq_some.mpr ⟨_, _, first, run_bind_eq_some.mpr ⟨_, _, ih others hm, rfl⟩⟩

/-- A keyword that was read is read before whatever follows it. -/
theorem run_keyword_of_run {e letter : Char} {letters : Text}
    (apart : ∀ letter ∈ letters, sameLetter e letter = false) {s m : Text} {k : Keyword}
    (h : run (keyword e (letter :: letters)) s = some (k, m)) :
    ∃ c t, k.render = c :: t ∧
      ∀ m', run (keyword e (letter :: letters)) (k.render ++ m') = some (k, m') := by
  simp only [keyword, run_attempt] at h ⊢
  obtain ⟨c, m', hc, h⟩ := run_bind_eq_some.mp h
  obtain ⟨tail, m₂, ht, h⟩ := run_bind_eq_some.mp h
  obtain ⟨rfl, rfl⟩ := run_pure_eq_some.mp h
  obtain ⟨rfl, same⟩ := run_satisfy_eq_some.mp hc
  have text : Keyword.render ⟨mergeStrings (.string [c] :: tail)⟩ = c :: Token.renderAll tail := by
    simp [Keyword.render, Keyword.toToken]
  refine ⟨c, Token.renderAll tail, text, fun m' => ?_⟩
  rw [text]
  refine run_bind_eq_some.mpr ⟨c, _, run_satisfy_eq_some.mpr ⟨rfl, same⟩, ?_⟩
  exact run_bind_eq_some.mpr ⟨tail, m', run_keywordTail_of_run apart ht m', rfl⟩

end Grammar

end DockerfileSyntax
