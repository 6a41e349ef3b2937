import DockerfileSyntax.Error

/-!
# Edits

An edit changes a value in place and may fail on the way. What it has changed by then stays changed,
so that an edit which leaves a value alone when it fails is one that checks before it changes.
-/

namespace DockerfileSyntax

/-- A change of a value in place, which may fail. -/
abbrev Edit (σ : Type) : Type → Type := EStateM Error σ

namespace Edit

variable {σ τ : Type}

/-- A check changes nothing. -/
instance : MonadLift (Except Error) (Edit σ) where
  monadLift
    | .ok a => pure a
    | .error error => throw error

/-- The value after an edit, and the error that ended the edit, if one did. -/
def apply (e : Edit σ Unit) (s : σ) : Progress Error σ :=
  match e s with
  | .ok () after => ⟨after, none⟩
  | .error error after => ⟨after, some error⟩

theorem apply_of_ok {e : Edit σ Unit} {s after : σ} (h : e s = .ok () after) :
    apply e s = ⟨after, none⟩ := by
  simp [apply, h]

theorem apply_of_error {e : Edit σ Unit} {s after : σ} {error : Error}
    (h : e s = .error error after) : apply e s = ⟨after, some error⟩ := by
  simp [apply, h]

/-- The value that an edit makes of one that is stored nowhere else: there is none if it fails. -/
def edited (e : Edit σ Unit) (s : σ) : Except Error σ := (apply e s).toExcept

/-- Edits a part and stores it, even if its edit fails. -/
def within (part : τ) (store : τ → σ) (e : Edit τ Unit) : Edit σ Unit := fun _ =>
  match e part with
  | .ok () after => .ok () (store after)
  | .error error after => .error error (store after)

/-- What an edit within a value does is what it does to the part. -/
theorem apply_within (part : τ) (store : τ → σ) (e : Edit τ Unit) (s : σ) :
    apply (within part store e) s = ⟨store (apply e part).result, (apply e part).error⟩ := by
  unfold apply within
  cases e part <;> rfl

/-- A failed check ends an edit and leaves the value as it is. -/
theorem check_bind {α β : Type} (check : Except Error α) (f : α → Edit σ β) (s : σ) :
    ((check : Edit σ α) >>= f) s =
      match check with
      | .ok a => f a s
      | .error error => .error error s := by
  cases check <;> rfl

theorem get_bind {β : Type} (f : σ → Edit σ β) (s : σ) : (get >>= f) s = f s s := rfl

end Edit

end DockerfileSyntax
