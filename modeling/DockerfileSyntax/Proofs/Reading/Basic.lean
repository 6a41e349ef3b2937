import DockerfileSyntax.Parser

/-!
# What a parser reads

A parser works on a cursor, which carries a position and a record of failures. Whether it succeeds,
with what and how far it gets depends on neither: `run` says what a parser makes of a text, and a
parser is `Regular` if it does the same from every cursor at which that text is left, and only ever
moves forward over it. Regular parsers are closed under the combinators, and `run` has one equation
for each of them.
-/

namespace DockerfileSyntax

/-! ## Places of one text -/

namespace Place

/-- `q` lies behind a beginning of the text that is left at `p`. -/
def Leads (p q : Place) : Prop :=
  ∃ t, p.rest = t ++ q.rest ∧ q = p.pass t

@[simp] theorem pass_nil (p : Place) : p.pass [] = p := rfl

theorem pass_append (p : Place) (s t : Text) : p.pass (s ++ t) = (p.pass s).pass t := by
  simp only [pass, Position.after_append, Text.utf8Length_append, List.length_append,
    List.drop_drop, Nat.sub_sub, Nat.add_assoc]

theorem leads_refl (p : Place) : p.Leads p :=
  ⟨[], rfl, rfl⟩

theorem Leads.trans {p q r : Place} (h : p.Leads q) (h' : q.Leads r) : p.Leads r := by
  obtain ⟨s, hs, rfl⟩ := h
  obtain ⟨t, ht, rfl⟩ := h'
  exact ⟨s ++ t, by rw [hs, ht, List.append_assoc], (pass_append p s t).symm⟩

/-- Passing over a beginning of the rest leads on. -/
theorem leads_pass {p : Place} {t r : Text} (h : p.rest = t ++ r) : p.Leads (p.pass t) :=
  ⟨t, by simp [pass, h], rfl⟩

theorem pass_rest {p : Place} {t r : Text} (h : p.rest = t ++ r) : (p.pass t).rest = r := by
  simp [pass, h]

theorem Leads.length_le {p q : Place} (h : p.Leads q) : q.rest.length ≤ p.rest.length := by
  obtain ⟨t, ht, -⟩ := h
  simp [ht]

theorem Leads.left_le {p q : Place} (h : p.Leads q) : q.left ≤ p.left := by
  rw [p.left_eq, q.left_eq]
  exact h.length_le

/-- Who has not come closer to the end has not moved. -/
theorem Leads.eq_of_not_lt {p q : Place} (h : p.Leads q) (hn : ¬ q.left < p.left) : q = p := by
  obtain ⟨t, ht, rfl⟩ := h
  have : t = [] := by
    rw [p.left_eq, Place.left_eq, ht, List.length_append] at hn
    exact List.length_eq_zero_iff.mp (by omega)
  rw [this, pass_nil]

end Place

namespace Parser

variable {α β : Type}

/-- What `p` makes of a text: its result and what is left of the text. -/
def run (p : Parser α) (s : Text) : Option (α × Text) :=
  match p (.start s) with
  | .ok a d => some (a, d.rest)
  | .error _ _ => none

/-- From every cursor `p` does what it does at the beginning of the text that is left there, and it
does not go back. -/
class Regular (p : Parser α) : Prop where
  of_ok : ∀ {c d : Cursor} {a : α}, p c = .ok a d →
    run p c.rest = some (a, d.rest) ∧ c.toPlace.Leads d.toPlace
  of_error : ∀ {c d : Cursor} {f : Failure}, p c = .error f d →
    run p c.rest = none ∧ c.toPlace.Leads d.toPlace

theorem run_of_ok {p : Parser α} {s : Text} {a : α} {d : Cursor} (h : p (.start s) = .ok a d) :
    run p s = some (a, d.rest) := by
  rw [run, h]

theorem run_of_error {p : Parser α} {s : Text} {f : Failure} {d : Cursor}
    (h : p (.start s) = .error f d) : run p s = none := by
  rw [run, h]

/-- A parser that succeeds on a text succeeds from every cursor at which that text is left. -/
theorem Regular.ok_of_run {p : Parser α} [Regular p] {c : Cursor} {a : α} {r : Text}
    (h : run p c.rest = some (a, r)) :
    ∃ d, p c = .ok a d ∧ d.rest = r ∧ c.toPlace.Leads d.toPlace := by
  cases hc : p c with
  | ok b d =>
    obtain ⟨hr, hl⟩ := Regular.of_ok hc
    obtain ⟨rfl, rfl⟩ := Prod.mk.inj (Option.some.inj (hr.symm.trans h))
    exact ⟨d, rfl, rfl, hl⟩
  | error f d =>
    have hr := (Regular.of_error hc).1
    rw [h] at hr
    cases hr

/-- What is left behind a regular parser is an end of the text. -/
theorem Regular.exists_append {p : Parser α} [Regular p] {s r : Text} {a : α}
    (h : run p s = some (a, r)) : ∃ t, s = t ++ r := by
  obtain ⟨d, -, rfl, t, ht, -⟩ := Regular.ok_of_run (p := p) (c := .start s) h
  exact ⟨t, ht⟩

theorem Regular.length_le {p : Parser α} [Regular p] {s r : Text} {a : α}
    (h : run p s = some (a, r)) : r.length ≤ s.length := by
  obtain ⟨t, rfl⟩ := Regular.exists_append h
  simp

/-- A regular parser is regular whatever it is equal to on the texts of bounded length. -/
theorem Regular.of_forall_left {p : Parser α}
    (h : ∀ n, ∃ q : Parser α, Regular q ∧ ∀ c : Cursor, c.left ≤ n → p c = q c) : Regular p where
  of_ok {c d a} hc := by
    obtain ⟨q, hq, agree⟩ := h c.left
    have hs : p (.start c.rest) = q (.start c.rest) := agree _ (Nat.le_of_eq c.left_eq.symm)
    rw [agree c (Nat.le_refl _)] at hc
    rw [run, hs]
    exact hq.of_ok hc
  of_error {c d f} hc := by
    obtain ⟨q, hq, agree⟩ := h c.left
    have hs : p (.start c.rest) = q (.start c.rest) := agree _ (Nat.le_of_eq c.left_eq.symm)
    rw [agree c (Nat.le_refl _)] at hc
    rw [run, hs]
    exact hq.of_error hc

/-! ## Sequences -/

theorem bind_apply (p : Parser α) (f : α → Parser β) (c : Cursor) :
    (p >>= f) c = match p c with
      | .ok a d => f a d
      | .error e d => .error e d := by
  show EStateM.bind p f c = _
  unfold EStateM.bind
  cases p c <;> rfl

instance regular_pure (a : α) : Regular (pure a : Parser α) where
  of_ok h := by
    cases h
    exact ⟨rfl, Place.leads_refl _⟩
  of_error h := nomatch h

@[simp] theorem run_pure (a : α) (s : Text) : run (pure a) s = some (a, s) := rfl

/-- One parser after the other reads what the second makes of the rest that the first leaves. -/
theorem run_bind (p : Parser α) (f : α → Parser β) [hf : ∀ a, Regular (f a)] (s : Text) :
    run (p >>= f) s = (run p s).bind fun x => run (f x.1) x.2 := by
  rw [run, bind_apply, run]
  cases hp : p (.start s) with
  | error e d => rfl
  | ok a d =>
    simp only [Option.bind_some]
    cases hd : f a d with
    | ok b e => exact ((hf a).of_ok hd).1.symm
    | error e e' => exact ((hf a).of_error hd).1.symm

instance regular_bind (p : Parser α) (f : α → Parser β) [hp : Regular p] [hf : ∀ a, Regular (f a)] :
    Regular (p >>= f) where
  of_ok {c d b} h := by
    rw [bind_apply] at h
    rw [run_bind]
    cases hc : p c with
    | ok a e =>
      simp only [hc] at h
      have first := hp.of_ok hc
      have second := (hf a).of_ok h
      exact ⟨by rw [first.1]; exact second.1, first.2.trans second.2⟩
    | error e e' =>
      simp only [hc] at h
      cases h
  of_error {c d f'} h := by
    rw [bind_apply] at h
    rw [run_bind]
    cases hc : p c with
    | ok a e =>
      simp only [hc] at h
      have first := hp.of_ok hc
      have second := (hf a).of_error h
      exact ⟨by rw [first.1]; exact second.1, first.2.trans second.2⟩
    | error e e' =>
      simp only [hc] at h
      cases h
      have first := hp.of_error hc
      exact ⟨by rw [first.1]; rfl, first.2⟩

theorem Regular.bind {p : Parser α} {f : α → Parser β} (h : Regular p)
    (h' : ∀ a, Regular (f a)) : Regular (p >>= f) :=
  inferInstance

instance regular_ite (P : Prop) [Decidable P] (p q : Parser α) [hp : Regular p] [hq : Regular q] :
    Regular (if P then p else q) := by
  split
  · exact hp
  · exact hq

/-- A sequence succeeds if and only if both parts do, the second on what the first leaves. -/
theorem run_bind_eq_some {p : Parser α} {f : α → Parser β} [∀ a, Regular (f a)] {s r : Text}
    {b : β} : run (p >>= f) s = some (b, r) ↔
      ∃ a m, run p s = some (a, m) ∧ run (f a) m = some (b, r) := by
  rw [run_bind, Option.bind_eq_some_iff]
  exact ⟨fun ⟨⟨a, m⟩, h, h'⟩ => ⟨a, m, h, h'⟩, fun ⟨a, m, h, h'⟩ => ⟨⟨a, m⟩, h, h'⟩⟩

theorem run_pure_eq_some {a b : α} {s r : Text} :
    run (pure a) s = some (b, r) ↔ b = a ∧ r = s := by
  rw [run_pure, Option.some.injEq, Prod.mk.injEq]
  exact ⟨fun ⟨h, h'⟩ => ⟨h.symm, h'.symm⟩, fun ⟨h, h'⟩ => ⟨h.symm, h'.symm⟩⟩

/-! ## Failing and going back -/

theorem record_toPlace (c : Cursor) (f : Failure) : (c.record f).toPlace = c.toPlace := by
  unfold Cursor.record
  split
  · rfl
  · split <;> rfl

instance regular_fail (what : Expectation) : Regular (fail what : Parser α) where
  of_ok h := nomatch h
  of_error {c d f} h := by
    cases h
    refine ⟨rfl, ?_⟩
    rw [record_toPlace]
    exact Place.leads_refl _

@[simp] theorem run_fail (what : Expectation) (s : Text) :
    run (fail what : Parser α) s = none := rfl

instance regular_peek : Regular peek where
  of_ok {c d a} h := by
    cases h
    exact ⟨rfl, Place.leads_refl _⟩
  of_error h := nomatch h

@[simp] theorem run_peek (s : Text) : run peek s = some (s.head?, s) := rfl

@[simp] theorem run_attempt (p : Parser α) (s : Text) : run (attempt p) s = run p s := by
  unfold run attempt
  cases p (.start s) <;> rfl

instance regular_attempt (p : Parser α) [hp : Regular p] : Regular (attempt p) where
  of_ok {c d a} h := by
    rw [run_attempt]
    unfold attempt at h
    cases hc : p c with
    | ok b e =>
      simp only [hc] at h
      cases h
      exact hp.of_ok hc
    | error f e =>
      simp only [hc] at h
      cases h
  of_error {c d f} h := by
    rw [run_attempt]
    unfold attempt at h
    cases hc : p c with
    | ok b e =>
      simp only [hc] at h
      cases h
    | error f' e =>
      simp only [hc] at h
      cases h
      exact ⟨(hp.of_error hc).1, Place.leads_refl _⟩

theorem Regular.attempt {p : Parser α} (h : Regular p) : Regular (attempt p) :=
  inferInstance

/-- A failed attempt leaves the cursor where it was. -/
theorem attempt_error_toPlace {p : Parser α} {c d : Cursor} {f : Failure}
    (h : attempt p c = .error f d) : d.toPlace = c.toPlace := by
  unfold attempt at h
  cases hc : p c with
  | ok b e =>
    simp only [hc] at h
    cases h
  | error f' e =>
    simp only [hc] at h
    cases h
    rfl

theorem run_optional_of_some {p : Parser α} {s r : Text} {a : α} (h : run p s = some (a, r)) :
    run (optional p) s = some (some a, r) := by
  rw [← run_attempt] at h
  unfold run optional at *
  cases hc : attempt p (.start s) with
  | ok b e =>
    simp only [hc, Option.some.injEq, Prod.mk.injEq] at h
    simp [h]
  | error f e =>
    simp only [hc] at h
    cases h

theorem run_optional_of_none {p : Parser α} {s : Text} (h : run p s = none) :
    run (optional p) s = some (none, s) := by
  rw [← run_attempt] at h
  unfold run optional at *
  cases hc : attempt p (.start s) with
  | ok b e =>
    simp only [hc] at h
    cases h
  | error f e =>
    have : e.rest = s := by rw [attempt_error_toPlace hc]; rfl
    simp [this]

/-- What an optional parser reads: what the parser reads or, if it fails, nothing. -/
theorem run_optional_eq_some {p : Parser α} {s r : Text} {o : Option α} :
    run (optional p) s = some (o, r) ↔
      (∃ a, o = some a ∧ run p s = some (a, r)) ∨ (o = none ∧ r = s ∧ run p s = none) := by
  cases h : run p s with
  | none =>
    rw [run_optional_of_none h]
    simp only [Option.some.injEq, Prod.mk.injEq, reduceCtorEq, and_false, exists_false, false_or,
      and_true]
    exact ⟨fun ⟨h, h'⟩ => ⟨h.symm, h'.symm⟩, fun ⟨h, h'⟩ => ⟨h.symm, h'.symm⟩⟩
  | some x =>
    obtain ⟨a, m⟩ := x
    rw [run_optional_of_some h]
    simp only [Option.some.injEq, Prod.mk.injEq, reduceCtorEq, and_false, or_false]
    exact ⟨fun ⟨h, h'⟩ => ⟨a, h.symm, rfl, h'⟩, fun ⟨b, h, h', h''⟩ => ⟨by rw [h, h'], h''⟩⟩

instance regular_optional (p : Parser α) [hp : Regular p] : Regular (optional p) where
  of_ok {c d o} h := by
    unfold optional at h
    cases hc : attempt p c with
    | ok b e =>
      simp only [hc] at h
      cases h
      have out := Regular.of_ok hc
      rw [run_attempt] at out
      exact ⟨run_optional_of_some out.1, out.2⟩
    | error f e =>
      simp only [hc] at h
      cases h
      have out := Regular.of_error hc
      rw [run_attempt] at out
      rw [attempt_error_toPlace hc]
      exact ⟨run_optional_of_none out.1, Place.leads_refl _⟩
  of_error {c d f} h := by
    unfold optional at h
    cases hc : attempt p c <;> simp only [hc] at h <;> cases h

/-- Behind an optional parser, each of the two ways on has to be regular. -/
instance regular_bind_optional (p : Parser α) (f : Option α → Parser β) [hp : Regular p]
    [hn : Regular (f none)] [hs : ∀ a, Regular (f (some a))] : Regular (optional p >>= f) := by
  refine Regular.bind inferInstance fun o => ?_
  cases o with
  | none => exact hn
  | some a => exact hs a

/-- Behind an optional parser, the way on is the one for what it has read or the one for nothing. -/
theorem run_optional_bind_eq_some {p : Parser α} {f : Option α → Parser β} [hn : Regular (f none)]
    [hs : ∀ a, Regular (f (some a))] {s r : Text} {b : β} :
    run (optional p >>= f) s = some (b, r) ↔
      (∃ a m, run p s = some (a, m) ∧ run (f (some a)) m = some (b, r)) ∨
      (run p s = none ∧ run (f none) s = some (b, r)) := by
  have : ∀ o, Regular (f o) := Option.rec hn hs
  rw [run_bind_eq_some]
  constructor
  · rintro ⟨o, m, ho, h⟩
    obtain ⟨a, rfl, ha⟩ | ⟨rfl, rfl, ha⟩ := run_optional_eq_some.mp ho
    · exact .inl ⟨a, m, ha, h⟩
    · exact .inr ⟨ha, h⟩
  · rintro (⟨a, m, ha, h⟩ | ⟨ha, h⟩)
    · exact ⟨some a, m, run_optional_of_some ha, h⟩
    · exact ⟨none, s, run_optional_of_none ha, h⟩

theorem optional_map (f : α → β) (p : Parser α) :
    optional (f <$> p) = Option.map f <$> optional p := by
  funext c
  simp only [optional, attempt, Functor.map, EStateM.map]
  cases p c <;> rfl

@[simp] theorem run_sees (p : Parser α) (s : Text) :
    run (sees p) s = some ((run p s).isSome, s) := by
  unfold run sees
  cases p (.start s) <;> rfl

instance regular_sees (p : Parser α) [hp : Regular p] : Regular (sees p) where
  of_ok {c d a} h := by
    rw [run_sees]
    unfold sees at h
    cases hc : p c with
    | ok b e =>
      simp only [hc] at h
      cases h
      rw [(hp.of_ok hc).1]
      exact ⟨rfl, Place.leads_refl _⟩
    | error f e =>
      simp only [hc] at h
      cases h
      rw [(hp.of_error hc).1]
      exact ⟨rfl, Place.leads_refl _⟩
  of_error {c d f} h := by
    unfold sees at h
    cases hc : p c <;> simp only [hc] at h <;> cases h

/-! ## Alternatives -/

@[simp] theorem run_firstOf_nil (s : Text) : run (firstOf ([] : List (Parser α))) s = none := rfl

@[simp] theorem run_firstOf_singleton (p : Parser α) (s : Text) :
    run (firstOf [p]) s = run p s := run_attempt p s

theorem firstOf_cons_cons (p q : Parser α) (qs : List (Parser α)) (c : Cursor) :
    firstOf (p :: q :: qs) c = match attempt p c with
      | .ok a d => .ok a d
      | .error _ d => firstOf (q :: qs) d := rfl

theorem run_firstOf_of_some {p : Parser α} {s r : Text} {a : α} (ps : List (Parser α))
    (h : run p s = some (a, r)) : run (firstOf (p :: ps)) s = some (a, r) := by
  cases ps with
  | nil => rwa [run_firstOf_singleton]
  | cons q qs =>
    rw [← run_attempt, run] at h
    rw [run, firstOf_cons_cons]
    cases hc : attempt p (.start s) with
    | ok b e => rwa [hc] at h
    | error f e =>
      rw [hc] at h
      cases h

theorem run_firstOf_of_none {p q : Parser α} {s : Text} (qs : List (Parser α))
    [hq : Regular (firstOf (q :: qs))] (h : run p s = none) :
    run (firstOf (p :: q :: qs)) s = run (firstOf (q :: qs)) s := by
  rw [← run_attempt] at h
  cases hc : attempt p (.start s) with
  | ok b e =>
    rw [run, hc] at h
    cases h
  | error f e =>
    have he : e.rest = s := by rw [attempt_error_toPlace hc]; rfl
    rw [run, firstOf_cons_cons, hc]
    simp only
    cases hd : firstOf (q :: qs) e with
    | ok b d => exact (he ▸ (hq.of_ok hd).1).symm
    | error f' d => exact (he ▸ (hq.of_error hd).1).symm

instance regular_firstOf_nil : Regular (firstOf ([] : List (Parser α))) :=
  regular_fail .alternative

instance regular_firstOf_singleton (p : Parser α) [Regular p] : Regular (firstOf [p]) :=
  regular_attempt p

instance regular_firstOf_cons (p q : Parser α) (qs : List (Parser α)) [hp : Regular p]
    [hq : Regular (firstOf (q :: qs))] : Regular (firstOf (p :: q :: qs)) where
  of_ok {c d a} h := by
    rw [firstOf_cons_cons] at h
    cases hc : attempt p c with
    | ok b e =>
      simp only [hc] at h
      cases h
      have out := Regular.of_ok hc
      rw [run_attempt] at out
      exact ⟨run_firstOf_of_some _ out.1, out.2⟩
    | error f e =>
      simp only [hc] at h
      have out := (Regular.of_error hc).1
      rw [run_attempt] at out
      rw [run_firstOf_of_none qs out, ← attempt_error_toPlace hc]
      exact hq.of_ok h
  of_error {c d f} h := by
    rw [firstOf_cons_cons] at h
    cases hc : attempt p c with
    | ok b e =>
      simp only [hc] at h
      cases h
    | error f e =>
      simp only [hc] at h
      have out := (Regular.of_error hc).1
      rw [run_attempt] at out
      rw [run_firstOf_of_none qs out, ← attempt_error_toPlace hc]
      exact hq.of_error h

theorem regular_firstOf {ps : List (Parser α)} (h : ∀ p ∈ ps, Regular p) :
    Regular (firstOf ps) := by
  induction ps with
  | nil => infer_instance
  | cons p ps ih =>
    have hp : Regular p := h p List.mem_cons_self
    have hps : Regular (firstOf ps) := ih fun q hq => h q (List.mem_cons_of_mem _ hq)
    cases ps with
    | nil => infer_instance
    | cons q qs => infer_instance

/-- The choice between two parsers. -/
theorem run_firstOf_pair {p q : Parser α} [Regular q] {s : Text} :
    run (firstOf [p, q]) s = (run p s).or (run q s) := by
  cases h : run p s with
  | none => rw [run_firstOf_of_none [] h, run_firstOf_singleton, Option.none_or]
  | some x => rw [run_firstOf_of_some _ h, Option.some_or]

/-! ## Characters -/

instance regular_endOfInput : Regular endOfInput where
  of_ok {c d a} h := by
    unfold endOfInput at h
    split at h
    · next hr =>
      cases h
      rw [hr]
      exact ⟨rfl, Place.leads_refl _⟩
    · cases h
  of_error {c d f} h := by
    unfold endOfInput at h
    split at h
    · cases h
    · next hr =>
      cases h
      rw [hr, record_toPlace]
      exact ⟨rfl, Place.leads_refl _⟩

theorem run_endOfInput_eq_some {s r : Text} {u : Unit} :
    run endOfInput s = some (u, r) ↔ s = [] ∧ r = [] := by
  cases s with
  | nil =>
    show some ((), []) = some (u, r) ↔ _
    simp [eq_comm]
  | cons c s =>
    show none = some (u, r) ↔ _
    simp

@[simp] theorem run_satisfy_nil (what : Expectation) (holds : Char → Bool) :
    run (satisfy what holds) [] = none := rfl

@[simp] theorem run_satisfy_cons (what : Expectation) (holds : Char → Bool) (c : Char) (s : Text) :
    run (satisfy what holds) (c :: s) = if holds c then some (c, s) else none := by
  have step : satisfy what holds (.start (c :: s)) =
      if holds c then .ok c ((Cursor.start (c :: s)).pass [c])
      else fail what (.start (c :: s)) := rfl
  rw [run, step]
  by_cases h : holds c = true
  · rw [if_pos h, if_pos h]
    rfl
  · rw [if_neg h, if_neg h]
    rfl

theorem run_satisfy_eq_some {what : Expectation} {holds : Char → Bool} {s r : Text} {c : Char} :
    run (satisfy what holds) s = some (c, r) ↔ s = c :: r ∧ holds c = true := by
  cases s with
  | nil => simp
  | cons d s =>
    rw [run_satisfy_cons]
    by_cases h : holds d = true
    · simp only [h, if_true, Option.some.injEq, Prod.mk.injEq, List.cons.injEq]
      exact ⟨fun ⟨e, e'⟩ => ⟨⟨e, e'⟩, e ▸ h⟩, fun ⟨e, _⟩ => e⟩
    · simp only [h, Bool.false_eq_true, if_false, reduceCtorEq, List.cons.injEq, false_iff]
      rintro ⟨⟨rfl, -⟩, hc⟩
      exact h hc

instance regular_satisfy (what : Expectation) (holds : Char → Bool) :
    Regular (satisfy what holds) where
  of_ok {c d a} h := by
    unfold satisfy at h
    split at h
    · cases h
    · next found r hr =>
      split at h
      · next hf =>
        cases h
        rw [hr, run_satisfy_cons, if_pos hf]
        have hr : c.toPlace.rest = [a] ++ r := hr
        refine ⟨?_, Place.leads_pass hr⟩
        rw [show (c.pass [a]).rest = r from Place.pass_rest hr]
      · cases h
  of_error {c d f} h := by
    unfold satisfy at h
    split at h
    · next hr =>
      rw [hr]
      exact ⟨rfl, ((regular_fail what).of_error h).2⟩
    · next found r hr =>
      split at h
      · cases h
      · next hf =>
        rw [hr, run_satisfy_cons, if_neg hf]
        exact ⟨rfl, ((regular_fail what).of_error h).2⟩

theorem takeWhile_append_dropWhile' (holds : Char → Bool) (s : Text) :
    s = s.takeWhile holds ++ s.drop (s.takeWhile holds).length := by
  conv => lhs; rw [← List.takeWhile_append_dropWhile (p := holds) (l := s)]
  congr 1
  conv => rhs; arg 2; rw [← List.takeWhile_append_dropWhile (p := holds) (l := s)]
  rw [List.drop_left]

instance regular_takeWhile (holds : Char → Bool) : Regular (takeWhile holds) where
  of_ok {c d a} h := by
    cases h
    exact ⟨rfl, Place.leads_pass (takeWhile_append_dropWhile' holds c.rest)⟩
  of_error h := nomatch h

@[simp] theorem run_takeWhile (holds : Char → Bool) (s : Text) :
    run (takeWhile holds) s = some (s.takeWhile holds, s.dropWhile holds) := by
  show some (s.takeWhile holds, s.drop (s.takeWhile holds).length) = _
  have := takeWhile_append_dropWhile' holds s
  conv at this => lhs; rw [← List.takeWhile_append_dropWhile (p := holds) (l := s)]
  rw [List.append_cancel_left this]

theorem run_eat (text s : Text) :
    run (eat text) s = if text.isPrefixOf s then some ((), s.drop text.length) else none := by
  have step : eat text (.start s) = if text.isPrefixOf s then .ok () ((Cursor.start s).pass text)
      else fail (.exactly text) (.start s) := rfl
  rw [run, step]
  by_cases h : text.isPrefixOf s = true
  · rw [if_pos h, if_pos h]
    rfl
  · rw [if_neg h, if_neg h]
    rfl

theorem run_eat_eq_some {text s r : Text} {u : Unit} :
    run (eat text) s = some (u, r) ↔ s = text ++ r := by
  rw [run_eat]
  split
  · next h =>
    obtain ⟨t, rfl⟩ := List.isPrefixOf_iff_prefix.mp h
    simp [eq_comm]
  · next h =>
    simp only [reduceCtorEq, false_iff]
    rintro rfl
    exact h (List.isPrefixOf_iff_prefix.mpr (List.prefix_append text r))

@[simp] theorem run_eat_append (text s : Text) : run (eat text) (text ++ s) = some ((), s) :=
  run_eat_eq_some.mpr rfl

theorem run_eat_of_head_ne {c : Char} {s : Text} (h : s.head? ≠ some c) :
    run (eat [c]) s = none := by
  rw [Option.eq_none_iff_forall_ne_some]
  rintro ⟨u, r⟩ hr
  rw [run_eat_eq_some.mp hr] at h
  exact h rfl

instance regular_eat (text : Text) : Regular (eat text) where
  of_ok {c d a} h := by
    unfold eat at h
    split at h
    · next hp =>
      obtain ⟨r, hr⟩ := List.isPrefixOf_iff_prefix.mp hp
      cases h
      rw [show (c.pass text).rest = r from Place.pass_rest hr.symm]
      exact ⟨run_eat_eq_some.mpr hr.symm, Place.leads_pass hr.symm⟩
    · cases h
  of_error {c d f} h := by
    unfold eat at h
    split at h
    · cases h
    · next hp =>
      rw [run_eat, if_neg hp]
      exact ⟨rfl, ((regular_fail _).of_error h).2⟩

theorem run_choose (what : Expectation) (spelling : α → Text) (options : List α) (s : Text) :
    run (choose what spelling options) s =
      (options.find? fun option => (spelling option).isPrefixOf s).map fun option =>
        (option, s.drop (spelling option).length) := by
  have rest : (Cursor.start s).rest = s := rfl
  rw [run, choose, rest]
  cases options.find? fun option => (spelling option).isPrefixOf s <;> rfl

/-- Who chooses reads the spelling of the option. -/
theorem eq_append_of_run_choose {what : Expectation} {spelling : α → Text} {options : List α}
    {s r : Text} {a : α} (h : run (choose what spelling options) s = some (a, r)) :
    a ∈ options ∧ s = spelling a ++ r := by
  rw [run_choose, Option.map_eq_some_iff] at h
  obtain ⟨b, hb, he⟩ := h
  obtain ⟨rfl, rfl⟩ := Prod.mk.inj he
  have hp : (spelling b).isPrefixOf s = true := by simpa using List.find?_some hb
  obtain ⟨t, rfl⟩ := List.isPrefixOf_iff_prefix.mp hp
  exact ⟨List.mem_of_find?_eq_some hb, by rw [List.drop_left]⟩

instance regular_choose (what : Expectation) (spelling : α → Text) (options : List α) :
    Regular (choose what spelling options) where
  of_ok {c d a} h := by
    unfold choose at h
    split at h
    · next option ho =>
      have hp : (spelling option).isPrefixOf c.rest = true := by simpa using List.find?_some ho
      cases h
      obtain ⟨r, hr⟩ := List.isPrefixOf_iff_prefix.mp hp
      refine ⟨?_, Place.leads_pass hr.symm⟩
      rw [run_choose, ho]
      rfl
    · cases h
  of_error {c d f} h := by
    unfold choose at h
    split at h
    · cases h
    · next ho =>
      rw [run_choose, ho]
      exact ⟨rfl, ((regular_fail what).of_error h).2⟩

/-! ## Repetition -/

/-- The items that `p` reads one after the other, each of them longer than nothing. -/
inductive Steps (p : Parser α) : Text → List α → Text → Prop
  | nil (s : Text) : Steps p s [] s
  | cons {s m r : Text} {a : α} {as : List α} :
      run p s = some (a, m) → m.length < s.length → Steps p m as r → Steps p s (a :: as) r

theorem Steps.append {p : Parser α} {s m r : Text} {as bs : List α} (h : Steps p s as m)
    (h' : Steps p m bs r) : Steps p s (as ++ bs) r := by
  induction h with
  | nil => exact h'
  | cons first shorter _ ih => exact .cons first shorter (ih h')

theorem repeatFrom_eq (p : Parser α) (c : Cursor) :
    repeatFrom p c = match attempt p c with
      | .error _ d => ([], d)
      | .ok a d => if d.left < c.left then (repeatFrom p d).map (a :: ·) id else ([], d) := by
  refine (repeatFrom.eq_def p c).trans ?_
  cases attempt p c <;> rfl

/-- Repetition takes all steps that it can take: it ends where the parser fails or stands still. -/
theorem repeatFrom_steps (p : Parser α) [hp : Regular p] (c : Cursor) :
    Steps p c.rest (repeatFrom p c).1 (repeatFrom p c).2.rest ∧
      (∀ a m, run p (repeatFrom p c).2.rest = some (a, m) → m = (repeatFrom p c).2.rest) ∧
      c.toPlace.Leads (repeatFrom p c).2.toPlace := by
  rw [repeatFrom_eq]
  cases hc : attempt p c with
  | error f d =>
    have out := Regular.of_error hc
    rw [run_attempt] at out
    rw [attempt_error_toPlace hc]
    refine ⟨.nil _, fun a m h => ?_, Place.leads_refl _⟩
    rw [out.1] at h
    cases h
  | ok a d =>
    have out := Regular.of_ok hc
    rw [run_attempt] at out
    by_cases shorter : d.left < c.left
    · simp only [shorter, if_true, Prod.map_fst, Prod.map_snd, id_eq]
      obtain ⟨steps, last, leads⟩ := repeatFrom_steps p d
      refine ⟨.cons out.1 ?_ steps, last, out.2.trans leads⟩
      rwa [d.left_eq, c.left_eq] at shorter
    · simp only [shorter, if_false]
      have here := out.2.eq_of_not_lt shorter
      rw [here] at out ⊢
      refine ⟨.nil _, fun b m h => ?_, out.2⟩
      rw [out.1] at h
      cases h
      rfl
termination_by c.left

/-- Two maximal repetitions from one text are the same. -/
theorem Steps.unique {p : Parser α} {s r r' : Text} {as bs : List α} (h : Steps p s as r)
    (h' : Steps p s bs r') (last : ∀ a m, run p r = some (a, m) → m = r)
    (last' : ∀ a m, run p r' = some (a, m) → m = r') : as = bs ∧ r = r' := by
  -- where one of the two ends, the parser fails or stands still, so that the other ends there too
  induction h generalizing bs with
  | nil s =>
    cases h' with
    | nil => exact ⟨rfl, rfl⟩
    | cons first shorter _ =>
      rw [last _ _ first] at shorter
      exact absurd shorter (Nat.lt_irrefl _)
  | @cons s m r a as first shorter _ ih =>
    cases h' with
    | nil =>
      rw [last' _ _ first] at shorter
      exact absurd shorter (Nat.lt_irrefl _)
    | cons first' _ rest' =>
      obtain ⟨rfl, rfl⟩ := Prod.mk.inj (Option.some.inj (first.symm.trans first'))
      obtain ⟨rfl, rfl⟩ := ih rest' last
      exact ⟨rfl, rfl⟩

/-- What a repetition reads: as many items as there are. -/
theorem run_many_eq_some {p : Parser α} [Regular p] {s r : Text} {as : List α} :
    run (many p) s = some (as, r) ↔
      Steps p s as r ∧ ∀ a m, run p r = some (a, m) → m = r := by
  have out : run (many p) s =
      some ((repeatFrom p (.start s)).1, (repeatFrom p (.start s)).2.rest) := rfl
  obtain ⟨steps, last, -⟩ := repeatFrom_steps p (.start s)
  rw [out, Option.some.injEq, Prod.mk.injEq]
  constructor
  · rintro ⟨rfl, rfl⟩
    exact ⟨steps, last⟩
  · rintro ⟨steps', last'⟩
    exact steps.unique steps' last last'

/-- A repetition never fails. -/
theorem exists_run_many (p : Parser α) (s : Text) : ∃ as r, run (many p) s = some (as, r) :=
  ⟨_, _, rfl⟩

/-- A repetition stops at once where the parser fails. -/
theorem run_many_of_none {p : Parser α} [Regular p] {s : Text} (h : run p s = none) :
    run (many p) s = some ([], s) :=
  run_many_eq_some.mpr ⟨.nil s, fun a m h' => by rw [h] at h'; cases h'⟩

/-- A repetition goes on where the steps before it end. -/
theorem run_many_of_steps {p : Parser α} [Regular p] {s m r : Text} {as bs : List α}
    (h : Steps p s as m) (h' : run (many p) m = some (bs, r)) :
    run (many p) s = some (as ++ bs, r) := by
  rw [run_many_eq_some] at h' ⊢
  exact ⟨h.append h'.1, h'.2⟩

/-- A repetition of what never stands still ends where that fails. -/
theorem run_eq_none_of_run_many {p : Parser α} [Regular p]
    (consumes : ∀ {s r a}, run p s = some (a, r) → r.length < s.length) {s r : Text} {as : List α}
    (h : run (many p) s = some (as, r)) : run p r = none := by
  rw [Option.eq_none_iff_forall_ne_some]
  rintro ⟨a, m⟩ again
  have shorter := consumes again
  rw [(run_many_eq_some.mp h).2 a m again] at shorter
  exact Nat.lt_irrefl _ shorter

instance regular_many (p : Parser α) [Regular p] : Regular (many p) where
  of_ok {c d as} h := by
    have out : many p c = .ok (repeatFrom p c).1 (repeatFrom p c).2 := rfl
    rw [out] at h
    cases h
    obtain ⟨steps, last, leads⟩ := repeatFrom_steps p c
    exact ⟨run_many_eq_some.mpr ⟨steps, last⟩, leads⟩
  of_error h := nomatch h

instance regular_many1 (p : Parser α) [Regular p] : Regular (many1 p) := by
  unfold many1
  infer_instance

theorem run_many1_eq_some {p : Parser α} [Regular p] {s r : Text} {as : List α} :
    run (many1 p) s = some (as, r) ↔ ∃ a m others, run p s = some (a, m) ∧
      run (many p) m = some (others, r) ∧ as = a :: others := by
  rw [many1]
  simp only [run_bind_eq_some, run_attempt, run_pure_eq_some]
  constructor
  · rintro ⟨a, m, first, others, m', repeated, rfl, rfl⟩
    exact ⟨a, m, others, first, repeated, rfl⟩
  · rintro ⟨a, m, others, first, repeated, rfl⟩
    exact ⟨a, m, first, others, r, repeated, rfl, rfl⟩

/-! ## Whole texts -/

/-- The whole of a text is read if the parser reads it and nothing is left. -/
theorem complete_eq_ok {p : Parser α} [Regular p] {s : Text} {a : α} :
    complete p s = .ok a ↔ run p s = some (a, []) := by
  have whole : run (do let a ← p; endOfInput; return a) s = some (a, []) ↔
      run p s = some (a, []) := by
    simp only [run_bind_eq_some, run_endOfInput_eq_some, run_pure_eq_some]
    constructor
    · rintro ⟨b, m, h, u, m', ⟨rfl, rfl⟩, rfl, -⟩
      exact h
    · intro h
      exact ⟨a, [], h, (), [], ⟨rfl, rfl⟩, rfl, rfl⟩
  -- the record of the furthest failure is looked at only where the reading fails
  rw [← whole, complete]
  cases hc : (do let a ← p; endOfInput; return a : Parser α) (.start s) with
  | ok b d =>
    rw [run_of_ok hc, Option.some.injEq, Prod.mk.injEq, Except.ok.injEq]
    refine ⟨fun h => ⟨h, ?_⟩, And.left⟩
    obtain ⟨x, m, -, h⟩ := run_bind_eq_some.mp (run_of_ok hc)
    obtain ⟨u, m', h, h'⟩ := run_bind_eq_some.mp h
    rw [(run_pure_eq_some.mp h').2, (run_endOfInput_eq_some.mp h).2]
  | error f d =>
    rw [run_of_error hc]
    simp only [reduceCtorEq]

theorem complete_map (f : α → β) (p : Parser α) (text : Text) :
    complete (f <$> p) text = (complete p text).map f := by
  unfold complete
  simp only [bind, EStateM.bind, Functor.map, EStateM.map]
  cases p (.start text) with
  | error failure c => rfl
  | ok a c =>
    dsimp only
    cases endOfInput c <;> rfl

end Parser

end DockerfileSyntax
