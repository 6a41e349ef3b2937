import DockerfileSyntax.Source.Position

/-!
# Positions and offsets

A position counts the line ends before it and the characters since the last one. Every character
moves it on, so that of two beginnings of one text the shorter one ends at the earlier position, and
to compare lines and columns is to compare offsets.
-/

namespace DockerfileSyntax

namespace Text

/-- The number of characters behind the last line end. -/
def sinceLineEnd (t : Text) : Nat :=
  (t.reverse.takeWhile (· ≠ '\n')).length

theorem utf8Length_pos {t : Text} (h : t ≠ []) : 0 < t.utf8Length := by
  cases t with
  | nil => exact absurd rfl h
  | cons c t =>
    rw [utf8Length_cons]
    exact Nat.add_pos_left c.utf8Size_pos _

end Text

namespace Position

/-! ## The order -/

variable {p q r : Position}

theorem lt_irrefl (p : Position) : ¬ p < p := by
  rw [lt_iff]
  omega

theorem lt_trans (h : p < q) (h' : q < r) : p < r := by
  rw [lt_iff] at *
  omega

theorem lt_asymm (h : p < q) : ¬ q < p := fun h' => lt_irrefl p (lt_trans h h')

theorem lt_of_not_lt_of_lt (h : ¬ p < q) (h' : p < r) : q < r := by
  rw [lt_iff] at *
  omega

/-! ## Moving on -/

theorem lt_step (p : Position) (c : Char) : p < p.step c := by
  rw [lt_iff]
  unfold step
  split
  · exact .inl (Nat.lt_succ_self _)
  · exact .inr ⟨rfl, Nat.lt_succ_self _⟩

theorem lt_after (p : Position) {t : Text} (h : t ≠ []) : p < p.after t := by
  induction t generalizing p with
  | nil => exact absurd rfl h
  | cons c t ih =>
    rw [after_cons]
    by_cases ht : t = []
    · rw [ht, after_nil]
      exact lt_step p c
    · exact lt_trans (lt_step p c) (ih (p.step c) ht)

/-- Behind a text stand the line ends of the text and the characters since the last one. -/
theorem start_after (t : Text) :
    start.after t = ⟨1 + t.count '\n', 1 + t.sinceLineEnd⟩ := by
  have reversed (s : Text) : start.after s.reverse =
      ⟨1 + s.count '\n', 1 + (s.takeWhile (· ≠ '\n')).length⟩ := by
    induction s with
    | nil => rfl
    | cons c s ih =>
      rw [List.reverse_cons, after_append, ih, after_cons, after_nil, step]
      by_cases hc : c = '\n'
      · simp [hc, Nat.add_assoc]
      · simp [hc]
        omega
  have := reversed t.reverse
  rwa [List.reverse_reverse, List.count_reverse] at this

/-! ## Beginnings of one text -/

section

variable {s t text : Text}

/-- Of two beginnings of a text, one goes on where the other ends. -/
theorem after_lt_after_cases (hs : s <+: text) (ht : t <+: text) :
    (s = t) ∨ (p.after s < p.after t ∧ s.utf8Length < t.utf8Length) ∨
      (p.after t < p.after s ∧ t.utf8Length < s.utf8Length) := by
  have longer {a b : Text} (h : a <+: b) (hne : a ≠ b) :
      p.after a < p.after b ∧ a.utf8Length < b.utf8Length := by
    obtain ⟨u, rfl⟩ := h
    have hu : u ≠ [] := fun e => hne (by rw [e, List.append_nil])
    rw [after_append, Text.utf8Length_append]
    exact ⟨lt_after _ hu, Nat.lt_add_of_pos_right (Text.utf8Length_pos hu)⟩
  by_cases hne : s = t
  · exact .inl hne
  · rcases List.prefix_or_prefix_of_prefix hs ht with h | h
    · exact .inr (.inl (longer h hne))
    · exact .inr (.inr (longer h (Ne.symm hne)))

/-- The order of positions is that of offsets. -/
theorem after_lt_after_iff (hs : s <+: text) (ht : t <+: text) :
    p.after s < p.after t ↔ s.utf8Length < t.utf8Length := by
  rcases after_lt_after_cases (p := p) hs ht with rfl | ⟨h, h'⟩ | ⟨h, h'⟩
  · simp only [lt_irrefl, Nat.lt_irrefl]
  · simp only [h, h']
  · simp only [lt_asymm h, Nat.lt_asymm h']

/-- Of two beginnings of a text, the one that does not end before the other goes on from it. -/
theorem prefix_of_not_after_lt (hs : s <+: text) (ht : t <+: text) (h : ¬ p.after s < p.after t) :
    t <+: s := by
  rcases List.prefix_or_prefix_of_prefix hs ht with ⟨u, rfl⟩ | isPrefix
  · by_cases hu : u = []
    · simp [hu]
    · rw [after_append] at h
      exact absurd (lt_after _ hu) h
  · exact isPrefix

end

end Position

end DockerfileSyntax
