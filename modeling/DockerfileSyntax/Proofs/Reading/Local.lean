import DockerfileSyntax.Proofs.Content.Breaks

/-!
# Parsers that look no further than one character

What stands before a name is read without regard to the name: its first character is one of those at
which everything else stops, and no such parser looks behind it. A parser is `Local` if it does the
same before any two texts that begin with such a character, except where it reads into them, and
`Blind` if it never does that. Only a comment does, which takes every character of its line; nothing
behind it can fail, so that the property is kept by sequences all the same.
-/

namespace DockerfileSyntax.Parser

variable {α β : Type} {stops : Char → Prop}

/-- Before texts that begin with a character at which it stops, `p` reads the same, as long as it
does not read into them. -/
structure Local (stops : Char → Prop) (p : Parser α) : Prop where
  fails : ∀ {y c r c' r'}, stops c → stops c' → run p (y ++ c :: r) = none →
    run p (y ++ c' :: r') = none
  reads : ∀ {y c r a m}, stops c → run p (y ++ c :: r) = some (a, m) → r.length < m.length →
    ∃ z, m = z ++ c :: r ∧ ∀ c' r', stops c' → run p (y ++ c' :: r') = some (a, z ++ c' :: r')

/-- A local parser that never reads a character at which it stops. -/
structure Blind (stops : Char → Prop) (p : Parser α) : Prop where
  isLocal : Local stops p
  stays : ∀ {y c r a m}, stops c → run p (y ++ c :: r) = some (a, m) → r.length < m.length

/-- `p` succeeds on every text. -/
def Total (p : Parser α) : Prop := ∀ s, run p s ≠ none

theorem total_pure (a : α) : Total (pure a : Parser α) := fun _ h => nomatch h

theorem total_many (p : Parser α) : Total (many p) := by
  intro s h
  obtain ⟨as, r, eq⟩ := exists_run_many p s
  rw [h] at eq
  cases eq

theorem total_takeWhile (holds : Char → Bool) : Total (takeWhile holds) := by
  intro s h
  rw [run_takeWhile] at h
  cases h

theorem total_optional (p : Parser α) : Total (optional p) := by
  intro s h
  cases hp : run p s with
  | none =>
    rw [run_optional_of_none hp] at h
    cases h
  | some x =>
    rw [run_optional_of_some (a := x.1) (r := x.2) hp] at h
    cases h

theorem Total.bind {p : Parser α} {f : α → Parser β} [∀ a, Regular (f a)] (h : Total p)
    (h' : ∀ a, Total (f a)) : Total (p >>= f) := by
  intro s hs
  rw [run_bind] at hs
  cases hp : run p s with
  | none => exact h s hp
  | some x =>
    rw [hp] at hs
    exact h' x.1 x.2 hs

/-! ## Sequences and alternatives -/

/-- What a parser leaves is never longer than what it started on, so it has stayed if the parser
behind it has. -/
theorem length_lt_of_bind {p : Parser α} {f : α → Parser β} [∀ a, Regular (f a)] {s r : Text}
    {b : β} {n : Nat} (h : run (p >>= f) s = some (b, r)) (hn : n < r.length) :
    ∃ a m, run p s = some (a, m) ∧ run (f a) m = some (b, r) ∧ n < m.length := by
  obtain ⟨a, m, hp, hf⟩ := run_bind_eq_some.mp h
  exact ⟨a, m, hp, hf, Nat.lt_of_lt_of_le hn (Regular.length_le hf)⟩

/-- A parser is blind if what it reads is always the same. -/
theorem Blind.of_reads {p : Parser α}
    (h : ∀ {y c r a m}, stops c → run p (y ++ c :: r) = some (a, m) →
      ∃ z, m = z ++ c :: r ∧ ∀ c' r', stops c' → run p (y ++ c' :: r') = some (a, z ++ c' :: r')) :
    Blind stops p := by
  refine ⟨⟨fun {y c r c' r'} hc hc' hr => ?_, fun hc hr _ => h hc hr⟩, fun hc hr => ?_⟩
  · rw [Option.eq_none_iff_forall_ne_some]
    rintro ⟨a, m⟩ hr'
    obtain ⟨z, -, same⟩ := h hc' hr'
    rw [same c r hc] at hr
    cases hr
  · obtain ⟨z, rfl, -⟩ := h hc hr
    simp only [List.length_append, List.length_cons]
    omega

theorem Blind.reads {p : Parser α} (h : Blind stops p) {y r m : Text} {c : Char} {a : α}
    (hc : stops c) (hr : run p (y ++ c :: r) = some (a, m)) :
    ∃ z, m = z ++ c :: r ∧
      ∀ c' r', stops c' → run p (y ++ c' :: r') = some (a, z ++ c' :: r') :=
  h.isLocal.reads hc hr (h.stays hc hr)

theorem blind_pure (a : α) : Blind stops (pure a : Parser α) := by
  refine Blind.of_reads fun {y c r b m} hc hr => ?_
  obtain ⟨rfl, rfl⟩ := run_pure_eq_some.mp hr
  exact ⟨y, rfl, fun _ _ _ => rfl⟩

theorem Blind.bind {p : Parser α} {f : α → Parser β} [∀ a, Regular (f a)] (hp : Blind stops p)
    (hf : ∀ a, Blind stops (f a)) : Blind stops (p >>= f) := by
  refine Blind.of_reads fun {y c r b m} hc hr => ?_
  obtain ⟨a, m', ha, hb⟩ := run_bind_eq_some.mp hr
  obtain ⟨z, rfl, first⟩ := hp.reads hc ha
  obtain ⟨z', rfl, second⟩ := (hf a).reads hc hb
  refine ⟨z', rfl, fun c' r' hc' => ?_⟩
  exact run_bind_eq_some.mpr ⟨a, _, first c' r' hc', second c' r' hc'⟩

theorem Local.reads_bind {p : Parser α} {f : α → Parser β} [∀ a, Regular (f a)]
    (hp : Local stops p) (hf : ∀ a, Local stops (f a)) {y r m : Text} {c : Char} {b : β}
    (hc : stops c) (hr : run (p >>= f) (y ++ c :: r) = some (b, m)) (hm : r.length < m.length) :
    ∃ z, m = z ++ c :: r ∧
      ∀ c' r', stops c' → run (p >>= f) (y ++ c' :: r') = some (b, z ++ c' :: r') := by
  obtain ⟨a, m', ha, hb, longer⟩ := length_lt_of_bind hr hm
  obtain ⟨z, rfl, first⟩ := hp.reads hc ha longer
  obtain ⟨z', rfl, second⟩ := (hf a).reads hc hb hm
  refine ⟨z', rfl, fun c' r' hc' => ?_⟩
  exact run_bind_eq_some.mpr ⟨a, _, first c' r' hc', second c' r' hc'⟩

/-- A blind parser, and then a local one. -/
theorem Local.bind_of_blind {p : Parser α} {f : α → Parser β} [∀ a, Regular (f a)]
    (hp : Blind stops p) (hf : ∀ a, Local stops (f a)) : Local stops (p >>= f) := by
  refine ⟨fun {y c r c' r'} hc hc' hr => ?_, hp.isLocal.reads_bind hf⟩
  rw [run_bind] at hr ⊢
  cases ha : run p (y ++ c :: r) with
  | none => rw [hp.isLocal.fails hc hc' ha, Option.bind_none]
  | some x =>
    obtain ⟨a, m⟩ := x
    obtain ⟨z, rfl, same⟩ := hp.reads hc ha
    rw [ha] at hr
    rw [same c' r' hc', Option.bind_some]
    exact (hf a).fails hc hc' hr

/-- A local parser, and then one that cannot fail. -/
theorem Local.bind_of_total {p : Parser α} {f : α → Parser β} [∀ a, Regular (f a)]
    (hp : Local stops p) (hf : ∀ a, Local stops (f a)) (total : ∀ a, Total (f a)) :
    Local stops (p >>= f) := by
  refine ⟨fun {y c r c' r'} hc hc' hr => ?_, hp.reads_bind hf⟩
  rw [run_bind] at hr ⊢
  cases ha : run p (y ++ c :: r) with
  | none => rw [hp.fails hc hc' ha, Option.bind_none]
  | some x =>
    rw [ha] at hr
    exact absurd hr (total x.1 x.2)

theorem Local.attempt {p : Parser α} (h : Local stops p) : Local stops (attempt p) := by
  refine ⟨fun hc hc' hr => ?_, fun hc hr hm => ?_⟩
  · rw [run_attempt] at hr ⊢
    exact h.fails hc hc' hr
  · simp only [run_attempt] at hr ⊢
    exact h.reads hc hr hm

theorem Local.optional {p : Parser α} (h : Local stops p) : Local stops (optional p) := by
  refine ⟨fun hc hc' hr => absurd hr (total_optional p _), fun {y c r o m} hc hr hm => ?_⟩
  obtain ⟨a, rfl, ha⟩ | ⟨rfl, rfl, ha⟩ := run_optional_eq_some.mp hr
  · obtain ⟨z, rfl, same⟩ := h.reads hc ha hm
    exact ⟨z, rfl, fun c' r' hc' => run_optional_of_some (same c' r' hc')⟩
  · exact ⟨y, rfl, fun c' r' hc' => run_optional_of_none (h.fails hc hc' ha)⟩

theorem Blind.optional {p : Parser α} (h : Blind stops p) : Blind stops (Parser.optional p) := by
  refine ⟨h.isLocal.optional, fun {y c r o m} hc hr => ?_⟩
  obtain ⟨a, rfl, ha⟩ | ⟨rfl, rfl, -⟩ := run_optional_eq_some.mp hr
  · exact h.stays hc ha
  · simp only [List.length_append, List.length_cons]
    omega

theorem Blind.attempt {p : Parser α} (h : Blind stops p) : Blind stops (Parser.attempt p) := by
  refine ⟨h.isLocal.attempt, fun {y c r o m} hc hr => ?_⟩
  rw [run_attempt] at hr
  exact h.stays hc hr

/-- Behind an optional blind parser, each of the two ways on is looked at alone. -/
theorem Local.bind_optional {p : Parser α} {f : Option α → Parser β} [hn : Regular (f none)]
    [hs : ∀ a, Regular (f (some a))] (h : Blind stops p) (none : Local stops (f none))
    (some : ∀ a, Local stops (f (some a))) : Local stops (Parser.optional p >>= f) := by
  have : ∀ o, Regular (f o) := Option.rec hn hs
  refine Local.bind_of_blind h.optional fun o => ?_
  cases o with
  | none => exact none
  | some a => exact some a

theorem Local.firstOf_pair {p q : Parser α} [Regular q] (hp : Local stops p) (hq : Local stops q) :
    Local stops (firstOf [p, q]) := by
  refine ⟨fun hc hc' hr => ?_, fun {y c r a m} hc hr hm => ?_⟩
  · rw [run_firstOf_pair, Option.or_eq_none_iff] at hr ⊢
    exact ⟨hp.fails hc hc' hr.1, hq.fails hc hc' hr.2⟩
  · simp only [run_firstOf_pair, Option.or_eq_some_iff] at hr ⊢
    rcases hr with ha | ⟨none, ha⟩
    · obtain ⟨z, rfl, same⟩ := hp.reads hc ha hm
      exact ⟨z, rfl, fun c' r' hc' => .inl (same c' r' hc')⟩
    · obtain ⟨z, rfl, same⟩ := hq.reads hc ha hm
      exact ⟨z, rfl, fun c' r' hc' => .inr ⟨hp.fails hc hc' none, same c' r' hc'⟩⟩

/-! ## Repetition -/

theorem Steps.length_le {p : Parser α} {s r : Text} {as : List α} (h : Steps p s as r) :
    r.length ≤ s.length := by
  induction h with
  | nil => exact Nat.le_refl _
  | cons _ shorter _ ih => exact Nat.le_trans ih (Nat.le_of_lt shorter)

theorem Local.steps {p : Parser α} (h : Local stops p) {c : Char} (hc : stops c) {s r m : Text}
    {as : List α} (steps : Steps p s as m) (hm : r.length < m.length) {y : Text}
    (hs : s = y ++ c :: r) :
    ∃ z, m = z ++ c :: r ∧
      ∀ c' r', stops c' → Steps p (y ++ c' :: r') as (z ++ c' :: r') := by
  induction steps generalizing y with
  | nil => exact ⟨y, hs, fun c' r' _ => .nil _⟩
  | @cons s k m a as first shorter rest ih =>
    subst hs
    have longer := Nat.lt_of_lt_of_le hm rest.length_le
    obtain ⟨z, rfl, same⟩ := h.reads hc first longer
    obtain ⟨z', hz, others⟩ := ih hm rfl
    refine ⟨z', hz, fun c' r' hc' => .cons (same c' r' hc') ?_ (others c' r' hc')⟩
    simp only [List.length_append, List.length_cons] at shorter ⊢
    omega

theorem Local.many {p : Parser α} [Regular p] (h : Local stops p) : Local stops (many p) := by
  refine ⟨fun hc hc' hr => absurd hr (total_many p _), fun {y c r as m} hc hr hm => ?_⟩
  obtain ⟨steps, last⟩ := run_many_eq_some.mp hr
  obtain ⟨z, rfl, same⟩ := h.steps hc steps hm rfl
  refine ⟨z, rfl, fun c' r' hc' => run_many_eq_some.mpr ⟨same c' r' hc', fun a k hk => ?_⟩⟩
  -- where the repetition ended, the parser fails or stands still, and so it does here
  cases hp : run p (z ++ c :: r) with
  | none =>
    rw [h.fails hc hc' hp] at hk
    cases hk
  | some x =>
    obtain ⟨b, k'⟩ := x
    obtain rfl := last b k' hp
    obtain ⟨z', hz, here⟩ := h.reads hc hp hm
    obtain rfl := List.append_cancel_right hz
    rw [here c' r' hc'] at hk
    exact (Prod.mk.inj (Option.some.inj hk)).2.symm

/-! ## Characters -/

theorem blind_eat {d : Char} (h : ∀ c, stops c → c ≠ d) : Blind stops (eat [d]) := by
  refine Blind.of_reads fun {y c r u m} hc hr => ?_
  have hs := run_eat_eq_some.mp hr
  cases y with
  | nil => exact absurd (List.cons.inj hs).1 (h c hc)
  | cons d' y =>
    obtain ⟨rfl, rfl⟩ := List.cons.inj hs
    exact ⟨y, rfl, fun c' r' _ => run_eat_eq_some.mpr rfl⟩

theorem blind_takeWhile {holds : Char → Bool} (h : ∀ c, stops c → holds c = false) :
    Blind stops (takeWhile holds) := by
  refine Blind.of_reads fun {y c r t m} hc hr => ?_
  rw [run_takeWhile] at hr
  obtain ⟨rfl, rfl⟩ := Prod.mk.inj (Option.some.inj hr)
  induction y with
  | nil =>
    refine ⟨[], by simp [h c hc], fun c' r' hc' => ?_⟩
    simp [h c hc, h c' hc']
  | cons d y ih =>
    cases hd : holds d with
    | false => exact ⟨d :: y, by simp [hd], fun c' r' _ => by simp [hd]⟩
    | true =>
      obtain ⟨z, hz, same⟩ := ih rfl
      refine ⟨z, by simpa [hd] using hz, fun c' r' hc' => ?_⟩
      have := same c' r' hc'
      rw [run_takeWhile, Option.some.injEq, Prod.mk.injEq] at this
      simp [hd, this.1, this.2]

/-- A run of characters that goes on wherever others stop is local all the same. -/
theorem local_takeWhile {holds : Char → Bool} (h : ∀ c, stops c → holds c = true) :
    Local stops (takeWhile holds) := by
  refine ⟨fun _ _ hr => absurd hr (total_takeWhile holds _), fun {y c r t m} hc hr hm => ?_⟩
  rw [run_takeWhile] at hr
  obtain ⟨rfl, rfl⟩ := Prod.mk.inj (Option.some.inj hr)
  induction y with
  | nil =>
    have intoText : (List.dropWhile holds (c :: r)).length ≤ r.length := by
      rw [List.dropWhile_cons, if_pos (h c hc)]
      exact (List.dropWhile_suffix holds).length_le
    exact absurd hm (Nat.not_lt_of_le intoText)
  | cons d y ih =>
    cases hd : holds d with
    | false => exact ⟨d :: y, by simp [hd], fun c' r' _ => by simp [hd]⟩
    | true =>
      obtain ⟨z, hz, same⟩ := ih (by simpa [hd] using hm) rfl
      refine ⟨z, by simpa [hd] using hz, fun c' r' hc' => ?_⟩
      have := same c' r' hc'
      rw [run_takeWhile, Option.some.injEq, Prod.mk.injEq] at this
      simp [hd, this.1, this.2]

end DockerfileSyntax.Parser
