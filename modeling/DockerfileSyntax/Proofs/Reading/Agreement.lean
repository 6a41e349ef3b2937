import DockerfileSyntax.Proofs.Reading.Basic

/-!
# Parsers that agree on short texts

A grammar that nests is a fixed point. Two parsers that agree wherever at most `n` characters are
left show that it is one: a parser that moves forward before it uses another one sees that one only
on shorter texts.
-/

namespace DockerfileSyntax

/-- The cursor at the end of a run, whether it succeeds or fails. -/
def resultCursor {α : Type} : EStateM.Result Failure Cursor α → Cursor
  | .ok _ d => d
  | .error _ d => d

namespace Parser

variable {α β : Type}

/-- On the texts with at most `n` characters, `p` and `q` do the same and do not go back. -/
def AgreeUpTo (n : Nat) (p q : Parser α) : Prop :=
  ∀ c : Cursor, c.left ≤ n → p c = q c ∧ (resultCursor (p c)).left ≤ c.left

theorem Regular.left_le {p : Parser α} [h : Regular p] (c : Cursor) :
    (resultCursor (p c)).left ≤ c.left := by
  cases hc : p c with
  | ok a d => exact (h.of_ok hc).2.left_le
  | error f d => exact (h.of_error hc).2.left_le

namespace AgreeUpTo

theorem refl (p : Parser α) [Regular p] (n : Nat) : AgreeUpTo n p p :=
  fun c _ => ⟨rfl, Regular.left_le c⟩

theorem bind {n : Nat} {p q : Parser α} {f g : α → Parser β} (h : AgreeUpTo n p q)
    (h' : ∀ a, AgreeUpTo n (f a) (g a)) : AgreeUpTo n (p >>= f) (q >>= g) := by
  intro c hc
  obtain ⟨same, bound⟩ := h c hc
  rw [bind_apply, bind_apply, ← same]
  cases hp : p c with
  | error e d =>
    rw [hp] at bound
    exact ⟨rfl, bound⟩
  | ok a d =>
    rw [hp] at bound
    obtain ⟨same', bound'⟩ := h' a d (Nat.le_trans bound hc)
    exact ⟨same', Nat.le_trans bound' bound⟩

/-- Behind a parser that moves on, agreement on shorter texts is enough. -/
theorem bind_of_lt {n : Nat} {p : Parser α} [hp : Regular p] {f g : α → Parser β}
    (shorter : ∀ s r a, run p s = some (a, r) → r.length < s.length)
    (h : ∀ m < n, ∀ a, AgreeUpTo m (f a) (g a)) : AgreeUpTo n (p >>= f) (p >>= g) := by
  intro c hc
  rw [bind_apply, bind_apply]
  cases hd : p c with
  | error e d => exact ⟨rfl, (hp.of_error hd).2.left_le⟩
  | ok a d =>
    have less : d.left < c.left := by
      rw [d.left_eq, c.left_eq]
      exact shorter _ _ _ (hp.of_ok hd).1
    obtain ⟨same, bound⟩ := h d.left (Nat.lt_of_lt_of_le less hc) a d (Nat.le_refl _)
    exact ⟨same, Nat.le_trans bound (Nat.le_of_lt less)⟩

theorem attempt {n : Nat} {p q : Parser α} (h : AgreeUpTo n p q) :
    AgreeUpTo n (attempt p) (attempt q) := by
  intro c hc
  obtain ⟨same, bound⟩ := h c hc
  unfold Parser.attempt
  rw [← same]
  cases hp : p c with
  | ok a d =>
    rw [hp] at bound
    exact ⟨rfl, bound⟩
  | error f d => exact ⟨rfl, Nat.le_refl _⟩

theorem optional {n : Nat} {p q : Parser α} (h : AgreeUpTo n p q) :
    AgreeUpTo n (optional p) (optional q) := by
  intro c hc
  obtain ⟨same, bound⟩ := h.attempt c hc
  unfold Parser.optional
  rw [← same]
  cases hp : Parser.attempt p c <;> rw [hp] at bound <;> exact ⟨rfl, bound⟩

theorem firstOf_pair {n : Nat} {p p' q q' : Parser α} (h : AgreeUpTo n p p')
    (h' : AgreeUpTo n q q') : AgreeUpTo n (firstOf [p, q]) (firstOf [p', q']) := by
  intro c hc
  obtain ⟨same, bound⟩ := h.attempt c hc
  rw [firstOf_cons_cons, firstOf_cons_cons, ← same]
  cases hp : Parser.attempt p c with
  | ok a d =>
    rw [hp] at bound
    exact ⟨rfl, bound⟩
  | error f d =>
    rw [hp] at bound
    obtain ⟨same', bound'⟩ := h'.attempt d (Nat.le_trans bound hc)
    exact ⟨same', Nat.le_trans bound' bound⟩

theorem repeatFrom {n : Nat} {p q : Parser α} (h : AgreeUpTo n p q) (c : Cursor)
    (hc : c.left ≤ n) :
    repeatFrom p c = repeatFrom q c ∧ (repeatFrom p c).2.left ≤ c.left := by
  obtain ⟨same, bound⟩ := h.attempt c hc
  rw [repeatFrom_eq, repeatFrom_eq, ← same]
  cases hp : Parser.attempt p c with
  | error f d =>
    rw [hp] at bound
    exact ⟨rfl, bound⟩
  | ok a d =>
    rw [hp] at bound
    by_cases less : d.left < c.left
    · simp only [less, if_true, Prod.map_snd, id_eq]
      obtain ⟨same', bound'⟩ := repeatFrom h d (Nat.le_trans bound hc)
      exact ⟨by rw [same'], Nat.le_trans bound' bound⟩
    · simp only [less, if_false, true_and]
      exact bound
termination_by c.left

theorem many {n : Nat} {p q : Parser α} (h : AgreeUpTo n p q) :
    AgreeUpTo n (many p) (many q) := by
  intro c hc
  obtain ⟨same, bound⟩ := h.repeatFrom c hc
  have out (r : Parser α) :
      Parser.many r c = .ok (Parser.repeatFrom r c).1 (Parser.repeatFrom r c).2 := rfl
  rw [out, out, ← same]
  exact ⟨rfl, bound⟩

end AgreeUpTo

end Parser

end DockerfileSyntax
