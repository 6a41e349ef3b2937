import DockerfileSyntax.Proofs.Content.Soundness
import DockerfileSyntax.Proofs.Lossless
import DockerfileSyntax.Proofs.Sessions
import DockerfileSyntax.StartPeriod

/-!
# Readings make progress

Nothing is read for ever. A repetition keeps an item only if less is left behind it. The units of
content need no such test: each of them takes a character at least, whatever is read as a word, so
that a loop that only asks whether one more unit can be read ends as well. A word stands behind the
dollar sign of its reference, and words nest no deeper than there are characters.

1. `Parser.repetition_iff`: a repetition as a run of tries.
2. `Grammar.nextUnit_moves`: one more unit of content is not empty, and lies further on.
3. `Grammar.collects_iff`: the loop over the units and what it gives.
4. `Grammar.nested_eq`: what lies below as many words as there are characters is never reached.
5. `Grammar.readings_make_progress`: all of this, and the ends that a reading can have.
-/

namespace DockerfileSyntax

/-! ## Further on in a text -/

/-- Of two beginnings of a text, the shorter one has fewer bytes. -/
theorem Text.utf8Length_lt_iff {s t text : Text} (hs : s <+: text) (ht : t <+: text) :
    s.utf8Length < t.utf8Length ↔ s.length < t.length := by
  have bytes {u : Text} : 0 < u.utf8Length ↔ 0 < u.length := by
    cases u with
    | nil => simp
    | cons c u => simpa using Nat.add_pos_left c.utf8Size_pos _
  rcases List.prefix_or_prefix_of_prefix hs ht with ⟨u, rfl⟩ | ⟨u, rfl⟩
  · rw [utf8Length_append, List.length_append, Nat.lt_add_right_iff_pos, Nat.lt_add_right_iff_pos]
    exact bytes
  · rw [utf8Length_append, List.length_append]
    omega

namespace Place

/-- Of two places of a text, the one at the greater offset has less behind it. -/
theorem Leads.offset_lt_iff {text : Text} {p q : Place} (hp : (start text).Leads p)
    (hq : (start text).Leads q) : p.offset < q.offset ↔ q.left < p.left := by
  obtain ⟨s, hs, offset, -⟩ := hp.exists_split
  obtain ⟨t, ht, offset', -⟩ := hq.exists_split
  rw [offset, offset', Text.utf8Length_lt_iff ⟨_, hs.symm⟩ ⟨_, ht.symm⟩, p.left_eq, q.left_eq]
  have whole := congrArg List.length (hs.symm.trans ht)
  rw [List.length_append, List.length_append] at whole
  omega

theorem Leads.offset_lt {p q : Place} (h : p.Leads q) (less : q.left < p.left) :
    p.offset < q.offset := by
  obtain ⟨t, ht, rfl⟩ := h
  refine Nat.lt_add_of_pos_right (Text.utf8Length_pos ?_)
  rintro rfl
  exact Nat.lt_irrefl _ less

end Place

namespace Parser

variable {α β : Type}

/-! ## Repetitions -/

/-- `p` is tried again and again from a cursor on: the items kept, the cursor in the end and the
number of tries. An item is kept if less is left behind it; the first one that is not, or the first
failure, is the last try. -/
inductive Repetition (p : Parser α) : Cursor → List α → Cursor → Nat → Prop
  | fails {c d : Cursor} {f : Failure} : attempt p c = .error f d → Repetition p c [] d 1
  | stands {c d : Cursor} {a : α} :
      attempt p c = .ok a d → ¬ d.left < c.left → Repetition p c [] d 1
  | keeps {c m d : Cursor} {a : α} {items : List α} {tries : Nat} :
      attempt p c = .ok a m → m.left < c.left → Repetition p m items d tries →
      Repetition p c (a :: items) d (tries + 1)

theorem exists_repetition (p : Parser α) (c : Cursor) :
    ∃ tries ≤ c.left + 1, Repetition p c (repeatFrom p c).1 (repeatFrom p c).2 tries := by
  rw [repeatFrom_eq]
  cases hc : attempt p c with
  | error f d => exact ⟨1, Nat.le_add_left 1 _, .fails hc⟩
  | ok a d =>
    by_cases less : d.left < c.left
    · simp only [less, if_true, Prod.map_fst, Prod.map_snd, id_eq]
      obtain ⟨tries, bound, others⟩ := exists_repetition p d
      exact ⟨tries + 1, by omega, .keeps hc less others⟩
    · simp only [less, if_false]
      exact ⟨1, Nat.le_add_left 1 _, .stands hc less⟩
termination_by c.left

/-- What a try does is settled by the cursor, so there is only one way to go on. -/
theorem Repetition.unique {p : Parser α} {c d d' : Cursor} {items items' : List α} {n n' : Nat}
    (h : Repetition p c items d n) (h' : Repetition p c items' d' n') :
    items = items' ∧ d = d' ∧ n = n' := by
  induction h generalizing items' d' n' with
  | fails failed =>
    cases h' with
    | fails failed' =>
      cases failed.symm.trans failed'
      exact ⟨rfl, rfl, rfl⟩
    | stands read' _ => cases failed.symm.trans read'
    | keeps read' _ _ => cases failed.symm.trans read'
  | stands read still =>
    cases h' with
    | fails failed' => cases read.symm.trans failed'
    | stands read' _ =>
      cases read.symm.trans read'
      exact ⟨rfl, rfl, rfl⟩
    | keeps read' less' _ =>
      cases read.symm.trans read'
      exact absurd less' still
  | keeps read less _ ih =>
    cases h' with
    | fails failed' => cases read.symm.trans failed'
    | stands read' still' =>
      cases read.symm.trans read'
      exact absurd less still'
    | keeps read' _ others' =>
      cases read.symm.trans read'
      obtain ⟨rfl, rfl, rfl⟩ := ih others'
      exact ⟨rfl, rfl, rfl⟩

/-- There is one way to try again and again, it is what `many` does, and it takes no more tries than
there are characters left, and one. -/
theorem repetition_iff (p : Parser α) (c : Cursor) :
    ∃ tries ≤ c.left + 1, ∀ items d n,
      Repetition p c items d n ↔ many p c = .ok items d ∧ n = tries := by
  obtain ⟨tries, bound, run⟩ := exists_repetition p c
  refine ⟨tries, bound, fun items d n => ⟨fun h => ?_, ?_⟩⟩
  · obtain ⟨rfl, rfl, rfl⟩ := run.unique h
    exact ⟨rfl, rfl⟩
  · rintro ⟨reads, rfl⟩
    cases reads
    exact run

/-! ## Parsers that do the same from one cursor -/

variable {p q : Parser α} {f g : α → Parser β} {c : Cursor}

theorem bind_congr_left (h : p c = q c) (f : α → Parser β) : (p >>= f) c = (q >>= f) c := by
  rw [bind_apply, bind_apply, h]

/-- Behind a parser, only the cursors to which it leads matter. -/
theorem bind_congr_right [hp : Regular p]
    (h : ∀ a d, p c = .ok a d → c.toPlace.Leads d.toPlace → f a d = g a d) :
    (p >>= f) c = (p >>= g) c := by
  rw [bind_apply, bind_apply]
  cases hc : p c with
  | ok a d => exact h a d hc (hp.of_ok hc).2
  | error e d => rfl

theorem attempt_congr (h : p c = q c) : attempt p c = attempt q c := by
  unfold attempt
  rw [h]

theorem optional_congr (h : p c = q c) : optional p c = optional q c := by
  unfold optional
  rw [attempt_congr h]

end Parser

namespace Grammar

open DockerfileSyntax.Parser

variable {word : Parser (List Token)} {rules : ContentRules}

/-! ## Words -/

/-- Two grammars of words give the same references if they do the same behind the dollar sign. -/
theorem bracedReference_congr {v w : Parser (List Token)} {c : Cursor}
    (h : ∀ d : Cursor, c.toPlace.Leads d.toPlace → c.offset < d.offset → v d = w d) :
    bracedReference v c = bracedReference w c := by
  refine attempt_congr (bind_congr_right fun u d hd leads => ?_)
  have less : d.left < c.left := by
    rw [d.left_eq, c.left_eq, run_eat_eq_some.mp (Regular.of_ok hd).1]
    simp only [List.length_append, List.length_cons]
    omega
  refine bind_congr_right fun name e _ leads' => bind_congr_left ?_ _
  refine bind_congr_right fun o m _ leads'' => ?_
  cases o with
  | none => rfl
  | some modifier =>
    -- the word begins behind the brace, and so behind the dollar sign
    have behind := leads'.trans leads''
    refine bind_congr_left (optional_congr (h m (leads.trans behind) ?_)) _
    exact (leads.trans behind).offset_lt (Nat.lt_of_le_of_lt behind.left_le less)

theorem head?_of_bracedReference {c d : Cursor} {found : Reference}
    (h : bracedReference word c = .ok found d) : c.rest.head? = some '$' := by
  unfold bracedReference attempt at h
  rw [bind_apply] at h
  cases hd : eat ['$', '\x7b'] c with
  | ok u e =>
    rw [run_eat_eq_some.mp (Regular.of_ok hd).1]
    rfl
  | error f e =>
    rw [hd] at h
    cases h

/-- What `p` reads or, if it fails, nothing. -/
def orNothing (p : Parser (List Token)) : Parser (List Token) := do
  let found ← optional p
  return found.getD []

theorem orNothing_apply (p : Parser (List Token)) (c : Cursor) :
    orNothing p c = match attempt p c with
      | .ok ts d => .ok ts d
      | .error _ d => .ok [] d := by
  unfold orNothing
  rw [bind_apply]
  unfold Parser.optional
  cases attempt p c <;> rfl

/-- A word may be empty anyway. -/
theorem modification_orNothing (word : Parser (List Token)) :
    modification (orNothing word) = modification word := by
  unfold modification
  refine bind_congr fun o => ?_
  cases o with
  | none => rfl
  | some modifier =>
    funext c
    show (optional (orNothing word) >>= _) c = (optional word >>= _) c
    rw [bind_apply, bind_apply]
    unfold Parser.optional
    have total : attempt (orNothing word) c = orNothing word c := by
      rw [attempt, orNothing_apply]
      cases attempt word c <;> rfl
    rw [total, orNothing_apply]
    cases attempt word c <;> rfl

theorem referenceWith_orNothing (word : Parser (List Token)) :
    referenceWith (orNothing word) = referenceWith word := by
  simp only [referenceWith, bracedReference, modification_orNothing]

theorem contentWith_orNothing (word : Parser (List Token)) (rules : ContentRules) :
    contentWith (orNothing word) rules = contentWith word rules := by
  simp only [contentWith, firstUnit, laterUnit, unit, referenceWith_orNothing]

/-! ## Units -/

theorem length_lt_of_unitPart [Regular word] {s r : Text} {part : Token}
    (h : run (unitPart word rules) s = some (part, r)) : r.length < s.length := by
  rcases run_unitPart_eq_some.mp h with ⟨found, hf, -⟩ | ⟨-, hc⟩
  · rw [referenceWith, run_firstOf_pair] at hf
    rcases Option.or_eq_some_iff.mp hf with hf | ⟨-, hf⟩
    · obtain ⟨name, -, rfl, -, -⟩ := run_bareReference_eq_some.mp hf
      simp only [List.length_cons, List.length_append]
      omega
    · obtain ⟨name, t, modified, -, rfl, -, hm, -⟩ := run_bracedReference_eq_some.mp hf
      have := Regular.length_le hm
      simp only [List.length_cons, List.length_append] at this ⊢
      omega
  · rcases run_characterPart_eq_some.mp hc with ⟨c, -, rfl, -⟩ | ⟨-, t, ht, -⟩
    · simp
    · obtain ⟨c, -, -, -, rfl⟩ := run_escapedChar_eq_some.mp ht
      simp only [List.length_cons]
      omega

theorem length_lt_of_unit [Regular word] {s r : Text} {ts : List Token}
    (h : run (unit word rules) s = some (ts, r)) : ts ≠ [] ∧ r.length < s.length := by
  obtain ⟨breaks, t, part, -, -, rfl, hp, rfl⟩ := run_unit_eq_some.mp h
  have := length_lt_of_unitPart hp
  refine ⟨by simp, ?_⟩
  rw [List.length_append]
  omega

/-- One more unit of content, where some has been read or none: only the first unit may not begin
with a line continuation, and only the later ones may stand behind white space. -/
def nextUnit (word : Parser (List Token)) (rules : ContentRules) (read : List Token) :
    Parser (List Token) :=
  if read = [] then firstUnit word rules else attempt (laterUnit word rules)

instance regular_nextUnit (word : Parser (List Token)) [Regular word] (rules : ContentRules)
    (read : List Token) : Regular (nextUnit word rules read) := by
  unfold nextUnit
  infer_instance

theorem length_lt_of_nextUnit [Regular word] {read ts : List Token} {s r : Text}
    (h : run (nextUnit word rules read) s = some (ts, r)) : ts ≠ [] ∧ r.length < s.length := by
  unfold nextUnit at h
  split at h
  · exact length_lt_of_unit (run_firstUnit_eq_some.mp h).2
  · rw [run_attempt, laterUnit_eq] at h
    obtain ⟨gap, m, hg, h⟩ := run_bind_eq_some.mp h
    obtain ⟨parts, m', hu, h⟩ := run_bind_eq_some.mp h
    obtain ⟨rfl, rfl⟩ := run_pure_eq_some.mp h
    obtain ⟨some, less⟩ := length_lt_of_unit hu
    exact ⟨by simp [some], Nat.lt_of_lt_of_le less (Regular.length_le hg)⟩

/-- One more unit of content is not empty, and the cursor has moved on. -/
theorem nextUnit_moves [Regular word] {read ts : List Token} {c d : Cursor}
    (h : nextUnit word rules read c = .ok ts d) :
    ts ≠ [] ∧ c.offset < d.offset ∧ d.left < c.left := by
  obtain ⟨reads, leads⟩ := Regular.of_ok h
  obtain ⟨some, less⟩ := length_lt_of_nextUnit reads
  rw [← c.left_eq, ← d.left_eq] at less
  exact ⟨some, leads.offset_lt less, less⟩

/-! ## The loop over the units -/

/-- What `p` reads; where it fails and nothing is permitted too, nothing. -/
def permitting (mayBeEmpty : Bool) (p : Parser (List Token)) : Parser (List Token) :=
  if mayBeEmpty then orNothing p else p

/-- Content that may be empty or not. -/
def valueContent (mayBeEmpty : Bool) (rules : ContentRules) : Parser (List Token) :=
  permitting mayBeEmpty (content rules)

instance regular_valueContent (mayBeEmpty : Bool) (rules : ContentRules) :
    Regular (valueContent mayBeEmpty rules) := by
  unfold valueContent permitting orNothing
  infer_instance

/-- A word may be empty, but that is not needed of it: its reference can do without. -/
theorem contentWith_valueContent (rules : ContentRules) :
    contentWith (valueContent true (.word rules.escape)) rules = content rules :=
  (contentWith_orNothing _ rules).trans (content_eq rules).symm

/-- One unit after the other is collected behind those that have been read, until there is none: the
result and the number of tries. The loop asks for nothing else. -/
inductive Collects (word : Parser (List Token)) (rules : ContentRules) (mayBeEmpty : Bool) :
    List Token → Cursor → EStateM.Result Failure Cursor (List Token) → Nat → Prop
  | takes {read ts : List Token} {c d : Cursor}
      {result : EStateM.Result Failure Cursor (List Token)} {tries : Nat} :
      nextUnit word rules read c = .ok ts d →
      Collects word rules mayBeEmpty (read ++ ts) d result tries →
      Collects word rules mayBeEmpty read c result (tries + 1)
  | ends {read : List Token} {c d : Cursor} {f : Failure} :
      nextUnit word rules read c = .error f d → read ≠ [] ∨ mayBeEmpty = true →
      Collects word rules mayBeEmpty read c (.ok (mergeStrings read) d) 1
  | refuses {c d : Cursor} {f : Failure} :
      nextUnit word rules [] c = .error f d → mayBeEmpty = false →
      Collects word rules mayBeEmpty [] c (.error f d) 1

/-- Behind a first unit, the loop collects what a repetition of later units keeps. -/
theorem exists_collects_behind (word : Parser (List Token)) [Regular word] (rules : ContentRules)
    (mayBeEmpty : Bool) {read : List Token} (h : read ≠ []) (c : Cursor) :
    ∃ tries ≤ c.left + 1, Collects word rules mayBeEmpty read c
      (.ok (mergeStrings (read ++ (repeatFrom (laterUnit word rules) c).1.flatten))
        (repeatFrom (laterUnit word rules) c).2) tries := by
  rw [repeatFrom_eq]
  have next : nextUnit word rules read c = attempt (laterUnit word rules) c := by
    rw [nextUnit, if_neg h]
  cases hc : attempt (laterUnit word rules) c with
  | error f d =>
    refine ⟨1, Nat.le_add_left 1 _, ?_⟩
    simpa using Collects.ends (next.trans hc) (.inl h)
  | ok ts d =>
    -- a unit always moves on, so that the test of the repetition succeeds
    obtain ⟨-, -, less⟩ := nextUnit_moves (next.trans hc)
    simp only [less, if_true, Prod.map_fst, Prod.map_snd, id_eq]
    obtain ⟨tries, bound, others⟩ :=
      exists_collects_behind word rules mayBeEmpty (List.append_ne_nil_of_left_ne_nil h ts) d
    refine ⟨tries + 1, by omega, .takes (next.trans hc) ?_⟩
    rwa [List.flatten_cons, ← List.append_assoc]
termination_by c.left

theorem contentWith_apply (word : Parser (List Token)) (rules : ContentRules) (c : Cursor) :
    contentWith word rules c = match firstUnit word rules c with
      | .ok first d =>
        .ok (mergeStrings (first ++ (repeatFrom (laterUnit word rules) d).1.flatten))
          (repeatFrom (laterUnit word rules) d).2
      | .error f d => .error f d := by
  rw [contentWith, bind_apply]
  cases firstUnit word rules c <;> rfl

theorem permitting_apply_ok {p : Parser (List Token)} {c d : Cursor} {ts : List Token}
    (h : p c = .ok ts d) (mayBeEmpty : Bool) : permitting mayBeEmpty p c = .ok ts d := by
  cases mayBeEmpty with
  | false => exact h
  | true =>
    show orNothing p c = _
    rw [orNothing_apply, attempt, h]

/-- The loop ends, and it reads content. -/
theorem exists_collects (word : Parser (List Token)) [Regular word] (rules : ContentRules)
    (mayBeEmpty : Bool) (c : Cursor) :
    ∃ tries ≤ c.left + 1,
      Collects word rules mayBeEmpty [] c (permitting mayBeEmpty (contentWith word rules) c)
        tries := by
  have next : nextUnit word rules [] c = firstUnit word rules c := by rw [nextUnit, if_pos rfl]
  cases hc : firstUnit word rules c with
  | ok first d =>
    obtain ⟨some, -, less⟩ := nextUnit_moves (next.trans hc)
    obtain ⟨tries, bound, others⟩ := exists_collects_behind word rules mayBeEmpty some d
    refine ⟨tries + 1, by omega, .takes (next.trans hc) ?_⟩
    have reads := contentWith_apply word rules c
    rw [hc] at reads
    rw [permitting_apply_ok reads]
    exact others
  | error f d =>
    refine ⟨1, Nat.le_add_left 1 _, ?_⟩
    have fails : contentWith word rules c = .error f d := by rw [contentWith_apply, hc]
    cases mayBeEmpty with
    | false =>
      show Collects word rules false [] c (contentWith word rules c) 1
      rw [fails]
      exact .refuses (next.trans hc) rfl
    | true =>
      -- the first unit is an attempt, so that there is nothing to go back from
      have here : d.goTo c.toPlace = d := by
        rw [← attempt_error_toPlace hc]
        rfl
      show Collects word rules true [] c (orNothing (contentWith word rules) c) 1
      rw [orNothing_apply, attempt, fails]
      show Collects word rules true [] c (.ok [] (d.goTo c.toPlace)) 1
      rw [here]
      exact .ends (next.trans hc) (.inr rfl)

theorem Collects.unique {mayBeEmpty : Bool} {read : List Token} {c : Cursor}
    {result result' : EStateM.Result Failure Cursor (List Token)} {n n' : Nat}
    (h : Collects word rules mayBeEmpty read c result n)
    (h' : Collects word rules mayBeEmpty read c result' n') : result = result' ∧ n = n' := by
  induction h generalizing result' n' with
  | takes next _ ih =>
    cases h' with
    | takes next' others' =>
      cases next.symm.trans next'
      obtain ⟨rfl, rfl⟩ := ih others'
      exact ⟨rfl, rfl⟩
    | ends failed' _ => cases next.symm.trans failed'
    | refuses failed' _ => cases next.symm.trans failed'
  | ends failed permitted =>
    cases h' with
    | takes next' _ => cases failed.symm.trans next'
    | ends failed' _ =>
      cases failed.symm.trans failed'
      exact ⟨rfl, rfl⟩
    | refuses _ required => simp [required] at permitted
  | refuses failed required =>
    cases h' with
    | takes next' _ => cases failed.symm.trans next'
    | ends _ permitted => simp [required] at permitted
    | refuses failed' _ =>
      cases failed.symm.trans failed'
      exact ⟨rfl, rfl⟩

/-- There is one way to collect, it is how content is read, and it takes no more tries than there
are characters left, and one. -/
theorem collects_iff (rules : ContentRules) (mayBeEmpty : Bool) (c : Cursor) :
    ∃ tries ≤ c.left + 1, ∀ result n,
      Collects (valueContent true (.word rules.escape)) rules mayBeEmpty [] c result n ↔
        valueContent mayBeEmpty rules c = result ∧ n = tries := by
  obtain ⟨tries, bound, run⟩ :=
    exists_collects (valueContent true (.word rules.escape)) rules mayBeEmpty c
  rw [contentWith_valueContent, ← valueContent] at run
  refine ⟨tries, bound, fun result n => ⟨fun h => ?_, ?_⟩⟩
  · obtain ⟨rfl, rfl⟩ := run.unique h
    exact ⟨rfl, rfl⟩
  · rintro ⟨rfl, rfl⟩
    exact run

/-! ## Words within words -/

/-- Content in which words nest `n` deep, with any parser at all in the place of what lies below. -/
def nested (deepest : Parser (List Token)) : Nat → Bool → ContentRules → Parser (List Token)
  | 0, _, _ => deepest
  | n + 1, mayBeEmpty, rules =>
    permitting mayBeEmpty (contentWith (nested deepest n true (.word rules.escape)) rules)

/-- Content uses the grammar of words only where less is left, so that what lies below as many
words as there are characters is never used. -/
theorem agreeUpTo_nested (deepest : Parser (List Token)) (mayBeEmpty : Bool) (rules : ContentRules)
    {m n : Nat} (h : m < n) :
    AgreeUpTo m (valueContent mayBeEmpty rules) (nested deepest n mayBeEmpty rules) := by
  induction n generalizing m mayBeEmpty rules with
  | zero => exact absurd h (Nat.not_lt_zero m)
  | succ n ih =>
    have below : AgreeUpTo m (content rules)
        (contentWith (nested deepest n true (.word rules.escape)) rules) := by
      rw [← contentWith_valueContent]
      exact agreeUpTo_contentWith (fun k hk => ih true (.word rules.escape) (by omega)) rules
    cases mayBeEmpty with
    | false => exact below
    | true => exact below.optional.bind fun found => AgreeUpTo.refl _ m

theorem nested_eq (deepest : Parser (List Token)) (mayBeEmpty : Bool) (rules : ContentRules)
    (c : Cursor) :
    nested deepest (c.left + 1) mayBeEmpty rules c = valueContent mayBeEmpty rules c :=
  (agreeUpTo_nested deepest mayBeEmpty rules (Nat.lt_succ_self _) c (Nat.le_refl _)).1.symm

end Grammar

/-! ## The ends of a reading -/

/-- The reading of a text ends with a result, or with a failure that stands in the text. -/
def Ends {α : Type} (text : Text) (result : Except Error α) : Prop :=
  (∃ a, result = .ok a) ∨ ∃ failure before rest,
    result = .error (.parse failure) ∧ text = before ++ rest ∧ failure.StandsAt before rest

namespace Parser

theorem ends_readAll {α : Type} (p : Parser α) [recorded : Recorded p] (text : Text) :
    Ends text (readAll p text) := by
  obtain ⟨log, records⟩ := recorded.exists_log
  cases hr : complete p text with
  | ok a => exact .inl ⟨a, readAll_eq_ok.mpr hr⟩
  | error failure =>
    obtain ⟨kept, arises⟩ := foldl_recordedIn records hr
    obtain ⟨earlier, later, whole, -, -⟩ := foldl_furthestOf_eq_some kept
    obtain ⟨place, leads, here⟩ := arises failure (by simp [whole])
    obtain ⟨before, rest, split, -, stands⟩ := Failure.standsAt_of_arisesAt leads here
    exact .inr ⟨failure, before, rest, readAll_eq_error.mpr ⟨failure, hr, rfl⟩, split, stands⟩

end Parser

namespace Grammar

open DockerfileSyntax.Parser

/-- Readings make progress, from every cursor and with every escape character and every other rule.
To be further on in a text, in bytes, is to have fewer characters left. A repetition of any parser
keeps an item only if less is left behind it, and tries once more, at most, than there are
characters left. The same is true of the loop over the units of content, though it asks for no
progress: each unit is not empty and leaves less, so that the loop ends, as content does, whether
that may be empty or not. What lies below as many words as there are characters is never used, and
words matter only behind the dollar sign of their reference. This is the content of references and
literals. So each reading of a whole text, of a declaration, an owner, a flag, a pair or by any
grammar that is built from those of this library, ends with a result or with a failure that stands
in the text. -/
theorem readings_make_progress :
    (∀ (text : Text) (p q : Place), (Place.start text).Leads p → (Place.start text).Leads q →
      (p.offset < q.offset ↔ q.left < p.left)) ∧
    (∀ {α : Type} (p : Parser α) (c : Cursor), ∃ tries ≤ c.left + 1, ∀ items d n,
      Repetition p c items d n ↔ many p c = .ok items d ∧ n = tries) ∧
    (∀ (rules : ContentRules) (mayBeEmpty : Bool) (c : Cursor),
      (∀ read ts d, nextUnit (valueContent true (.word rules.escape)) rules read c = .ok ts d →
        ts ≠ [] ∧ c.offset < d.offset ∧ d.left < c.left) ∧
      (∃ tries ≤ c.left + 1, ∀ result n,
        Collects (valueContent true (.word rules.escape)) rules mayBeEmpty [] c result n ↔
          valueContent mayBeEmpty rules c = result ∧ n = tries) ∧
      ∀ deepest, nested deepest (c.left + 1) mayBeEmpty rules c = valueContent mayBeEmpty rules c) ∧
    (∀ (v w : Parser (List Token)) (c : Cursor),
      (∀ found d, bracedReference w c = .ok found d → c.rest.head? = some '$') ∧
      ((∀ d : Cursor, c.toPlace.Leads d.toPlace → c.offset < d.offset → v d = w d) →
        bracedReference v c = bracedReference w c)) ∧
    (∀ escape, reference escape = referenceWith (valueContent true (.word escape)) ∧
      ∀ spacing excluded, literalContent escape spacing excluded none =
          valueContent false (.bare escape spacing excluded) ∧
        ∀ quote, literalContent escape spacing excluded (some quote) =
          valueContent true (.quoted escape quote)) ∧
    (∀ escape text, Ends text (Arg.parse escape text) ∧ Ends text (Owner.parse escape text) ∧
      Ends text (StartPeriod.parse escape text)) ∧
    (∀ {K V : ValueKind} (key : ValueProduction K) (value : ValueProduction V) escape isFlag text,
      Ends text (KeyValue.parse escape isFlag key.parser value.parser text)) ∧
    ∀ (production : Production) text, Ends text ((production.read text).mapError .parse) := by
  refine ⟨fun _ _ _ => Place.Leads.offset_lt_iff, repetition_iff, fun rules mayBeEmpty c =>
      ⟨fun _ _ _ => nextUnit_moves, collects_iff rules mayBeEmpty c,
        fun deepest => nested_eq deepest mayBeEmpty rules c⟩,
    fun v w c => ⟨fun _ _ => head?_of_bracedReference, bracedReference_congr⟩,
    fun escape => ⟨(referenceWith_orNothing _).symm, fun _ _ => ⟨rfl, fun _ => rfl⟩⟩,
    fun _ _ => ⟨ends_readAll _ _, ends_readAll _ _, ends_readAll _ _⟩,
    fun _ _ _ _ _ => ends_readAll _ _, fun production _ => ?_⟩
  have recorded := production.recorded
  exact ends_readAll production.parser _

/-- A brace, a quote and a line that nothing ends are refused. In `${A:-b}` the unit ends behind the
brace, and a grammar of words that fails at the dollar sign makes no difference. -/
theorem readings_make_progress_sample :
    let word := valueContent true (.word '\\')
    let text : Text := "$\x7bA:-b\x7d".toList
    (∀ text ∈ ["ARG x=$\x7bA:-b".toList, "ARG x='b".toList, "ARG x=b\\".toList],
      ∃ failure before rest, Arg.parse '\\' text = .error (.parse failure) ∧
        text = before ++ rest ∧ failure.StandsAt before rest) ∧
    (∃ ts d, nextUnit word (.bare '\\' .ends []) [] (.start text) = .ok ts d ∧
      0 < d.offset ∧ d.left < 7) ∧
    (∃ found d, bracedReference word (.start text) = .ok found d ∧
      (Cursor.start text).rest.head? = some '$') ∧
    bracedReference (fun d => if d.offset = 0 then fail .literal d else word d) (.start text) =
      bracedReference word (.start text) ∧
    (0 < ((Place.start ['é']).pass ['é']).offset ↔ ((Place.start ['é']).pass ['é']).left < 1) := by
  intro word text
  obtain ⟨places, -, content, words, -, entries, -⟩ := readings_make_progress
  have unitRead : run (nextUnit word (.bare '\\' .ends []) []) text =
      some ([.reference true [.string ['A'], .symbol [':', '-'],
        .literal none [.string ['b']]]], []) := by decide +kernel
  have referenceRead : run (bracedReference word) text =
      some (⟨true, [.string ['A'], .symbol [':', '-'], .literal none [.string ['b']]]⟩, []) := by
    decide +kernel
  have notRead : ∀ text ∈ ["ARG x=$\x7bA:-b".toList, "ARG x='b".toList, "ARG x=b\\".toList],
      (Arg.parse '\\' text).isOk = false := by decide +kernel
  refine ⟨fun text member => ?_, ?_, ?_, ?_, ?_⟩
  · rcases (entries '\\' text).1 with ⟨a, ha⟩ | refused
    · have isRead := notRead text member
      rw [ha] at isRead
      cases isRead
    · exact refused
  · obtain ⟨d, hd, -, -⟩ := Regular.ok_of_run (c := .start text) unitRead
    exact ⟨_, d, hd, ((content (.bare '\\' .ends []) false _).1 _ _ _ hd).2⟩
  · obtain ⟨d, hd, -, -⟩ := Regular.ok_of_run (c := .start text) referenceRead
    exact ⟨_, d, hd, (words word _ _).1 _ _ hd⟩
  · refine (words _ _ _).2 fun d _ further => if_neg ?_
    exact Nat.ne_of_gt further
  · exact places ['é'] _ _ (Place.leads_refl _) (Place.leads_pass (List.append_nil _).symm)

end Grammar

end DockerfileSyntax
