import DockerfileSyntax.Proofs.Edits

/-!
# Edits that mirror each other

A record and the list of its tokens hold the same data, so an edit of the one has an image among the
edits of the other. `Edit.Mirrors` says that an edit of the list does what an edit of the record
does, with the same error if there is one. If every edit is mirrored in every state that the edits
lead to, then a run of edits is mirrored too: `Edit.mirrors_afterAll`.
-/

namespace DockerfileSyntax

namespace Edit

variable {σ τ ρ α : Type} {f : σ → τ} {s : σ}

/-- What `e'` does to the image of a value is what `e` does to the value. -/
def Mirrors (f : σ → τ) (s : σ) (e' : Edit τ Unit) (e : Edit σ Unit) : Prop :=
  apply e' (f s) = ⟨f (apply e s).result, (apply e s).error⟩

theorem mirrors_throw (f : σ → τ) (s : σ) (error : Error) :
    Mirrors f s (throw error) (throw error) :=
  rfl

theorem mirrors_set {t : τ} {r : σ} (h : t = f r) : Mirrors f s (set t) (set r) := by
  rw [h]
  rfl

theorem mirrors_set_modify {t : τ} {g : σ → σ} (h : t = f (g s)) :
    Mirrors f s (set t) (modify g) := by
  rw [h]
  rfl

theorem mirrors_pure_modify {g : σ → σ} (h : f s = f (g s)) : Mirrors f s (pure ()) (modify g) := by
  show (⟨f s, none⟩ : Progress Error τ) = ⟨f (g s), none⟩
  rw [h]

/-- Reading the value is no change. -/
theorem Mirrors.read {e' : Edit τ Unit} {g : σ → Edit σ Unit} (h : Mirrors f s e' (g s)) :
    Mirrors f s e' (get >>= g) := h

theorem Mirrors.readImage {g' : τ → Edit τ Unit} {e : Edit σ Unit} (h : Mirrors f s (g' (f s)) e) :
    Mirrors f s (get >>= g') e := h

/-- The same check before both edits. -/
theorem Mirrors.check {g' : α → Edit τ Unit} {g : α → Edit σ Unit}
    (h : ∀ a, Mirrors f s (g' a) (g a)) (check : Except Error α) :
    Mirrors f s (check >>= g') (check >>= g) := by
  rw [Mirrors, apply, apply, check_bind, check_bind]
  cases check with
  | ok a => exact h a
  | error error => rfl

/-- The same edit of a part that both values have. -/
theorem mirrors_within {part : ρ} {store' : ρ → τ} {store : ρ → σ} (e : Edit ρ Unit)
    (h : ∀ part, store' part = f (store part)) :
    Mirrors f s (within part store' e) (within part store e) := by
  rw [Mirrors, apply_within, apply_within, h]

/-- An edit of a part mirrors what is done to the part. -/
theorem Mirrors.within {part : ρ} {store : ρ → σ} {e' : Edit τ Unit} {e : Edit ρ Unit}
    (h : Mirrors (fun part => f (store part)) part e' e) (stored : store part = s) :
    Mirrors f s e' (within part store e) := by
  rw [Mirrors, apply_within, ← stored]
  exact h

/-- Edits that are mirrored wherever an invariant holds, and that keep the invariant, are mirrored
one after the other. -/
theorem mirrors_afterAll {κ : Type} {Inv : σ → Prop} {run' : κ → Edit τ Unit}
    {run : κ → Edit σ Unit}
    (mirrors : ∀ s, Inv s → ∀ k, Mirrors f s (run' k) (run k))
    (kept : ∀ s, Inv s → ∀ k, Inv (apply (run k) s).result) (h : Inv s) (edits : List κ) :
    afterAll (edits.map run') (f s) = f (afterAll (edits.map run) s) := by
  induction edits generalizing s with
  | nil => rfl
  | cons k edits ih =>
    have first := congrArg Progress.result (mirrors s h k)
    show afterAll _ (apply (run' k) (f s)).result = _
    rw [first]
    exact ih (kept s h k)

end Edit

end DockerfileSyntax
