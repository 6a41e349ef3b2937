import DockerfileSyntax.Proofs.Content.Breaks
import DockerfileSyntax.Proofs.Reading.Agreement

/-!
# Texts in another spelling

The same text may be written with the other escape character, or with other line ends. A
`Respelling` says how, and two parsers do the same under it (`Carries`) if from two spellings of one
text they come to two spellings of one rest: both succeed, with results that correspond, or both
fail, at the same line and column. The combinators keep this, so that a grammar does the same on
both spellings if its primitives do.

A character of one spelling need not be one of the other, since `\r\n` ends a line as `\n` does; but
a class that neither line ends nor the escape characters tell apart is met at the same places.
-/

namespace DockerfileSyntax

/-- Another spelling of texts. It may replace the escape characters, one for one, and the line end
`\n`. -/
structure Respelling where
  char : Char → Char
  /-- what is written for `\n` -/
  lineEnd : Text
  /-- what becomes of a line end that has been read -/
  newLine : Text → Text
  /-- the texts may hold `\r` -/
  returns : Bool
  char_eq : ∀ {c}, ¬ IsEscape c → char c = c
  isEscape_char : ∀ {c}, IsEscape c → IsEscape (char c)
  char_injective : ∀ {c d}, char c = char d → c = d
  lineEnd_mem : lineEnd ∈ lineEnds
  newLine_lineFeed : newLine ['\n'] = lineEnd
  lineEnd_eq : returns = true → lineEnd = ['\n']
  newLine_both : returns = true → newLine ['\r', '\n'] = ['\r', '\n']

namespace Respelling

open DockerfileSyntax.Parser

variable (T : Respelling)

/-! ## Texts -/

/-- The other spelling of a text. -/
def text (s : Text) : Text :=
  s.flatMap fun c => if c = '\n' then T.lineEnd else [T.char c]

/-- The texts that the respelling is for. -/
def Admits (s : Text) : Prop := T.returns = false → '\r' ∉ s

variable {T}

@[simp] theorem text_nil : T.text [] = [] := rfl

@[simp] theorem text_append (s t : Text) : T.text (s ++ t) = T.text s ++ T.text t :=
  List.flatMap_append

theorem Admits.of_append {s t : Text} (h : T.Admits (s ++ t)) : T.Admits t :=
  fun no mem => h no (List.mem_append_right s mem)

theorem char_lineFeed : T.char '\n' = '\n' := T.char_eq (by decide)

theorem char_return : T.char '\r' = '\r' := T.char_eq (by decide)

theorem char_eq_lineFeed_iff {c : Char} : T.char c = '\n' ↔ c = '\n' :=
  ⟨fun h => T.char_injective (h.trans char_lineFeed.symm), fun h => by rw [h, char_lineFeed]⟩

/-- The other spelling begins with the other spelling of the first character, unless that is a line
end of its own and two characters stand for it. -/
theorem text_cons (c : Char) (s : Text) :
    T.text (c :: s) = T.char c :: T.text s ∨
      (c = '\n' ∧ T.text (c :: s) = '\r' :: '\n' :: T.text s) := by
  have split : T.text (c :: s) = (if c = '\n' then T.lineEnd else [T.char c]) ++ T.text s :=
    List.flatMap_cons
  rw [split]
  by_cases hc : c = '\n'
  · have mem := T.lineEnd_mem
    simp only [lineEnds, List.mem_cons, List.not_mem_nil, or_false] at mem
    rcases mem with h | h
    · exact .inr ⟨hc, by rw [if_pos hc, h]; rfl⟩
    · exact .inl (by rw [if_pos hc, h, hc, char_lineFeed]; rfl)
  · exact .inl (by rw [if_neg hc]; rfl)

theorem text_cons_of_ne {c : Char} (hc : c ≠ '\n') (s : Text) :
    T.text (c :: s) = T.char c :: T.text s := by
  rcases text_cons c s with h | ⟨h, -⟩
  · exact h
  · exact absurd h hc

/-- Without line ends, a text is respelled character by character. -/
theorem text_eq_map {s : Text} (h : '\n' ∉ s) : T.text s = s.map T.char := by
  induction s with
  | nil => rfl
  | cons c s ih =>
    rw [List.mem_cons, not_or] at h
    rw [text_cons_of_ne (Ne.symm h.1), ih h.2, List.map_cons]

theorem text_eq_nil_iff {s : Text} : T.text s = [] ↔ s = [] := by
  cases s with
  | nil => simp
  | cons c s => rcases text_cons (T := T) c s with h | ⟨-, h⟩ <;> simp [h]

/-! ## Classes of characters -/

/-- The class is met at the same places in both spellings, never at a line end. -/
structure Respects (T : Respelling) (holds holds' : Char → Bool) : Prop where
  same : ∀ c, holds' (T.char c) = holds c
  lineFeed : holds '\n' = false
  return_ : holds '\r' = false

theorem respects {holds : Char → Bool} (escapes : holds '\\' = holds '`')
    (lineFeed : holds '\n' = false) (return_ : holds '\r' = false) : T.Respects holds holds := by
  refine ⟨fun c => ?_, lineFeed, return_⟩
  by_cases hc : IsEscape c
  · have hc' := T.isEscape_char hc
    rcases hc with rfl | rfl <;> rcases hc' with h | h <;> simp [h, escapes]
  · rw [T.char_eq hc]

theorem Respects.return_' {holds holds' : Char → Bool} (h : T.Respects holds holds') :
    holds' '\r' = false := by
  have := h.same '\r'
  rwa [char_return, h.return_] at this

/-- The escape character is a class that has become another one. -/
theorem respects_escape {e : Char} (he : IsEscape e) :
    T.Respects (· == e) (· == T.char e) := by
  refine ⟨fun c => ?_, ?_, ?_⟩
  · rw [Bool.eq_iff_iff, beq_iff_eq, beq_iff_eq]
    exact ⟨fun h => T.char_injective h, congrArg T.char⟩
  all_goals rcases he with rfl | rfl <;> decide

/-! ## Positions -/

/-- A part of a text without line ends is as long in both spellings. -/
theorem after_map (p : Position) (t : Text) : p.after (t.map T.char) = p.after t := by
  induction t generalizing p with
  | nil => rfl
  | cons c t ih =>
    have step : p.step (T.char c) = p.step c := by
      unfold Position.step
      by_cases hc : c = '\n'
      · rw [if_pos hc, if_pos (char_eq_lineFeed_iff.mpr hc)]
      · rw [if_neg hc, if_neg (mt char_eq_lineFeed_iff.mp hc)]
    rw [List.map_cons, Position.after_cons, Position.after_cons, step, ih]

/-- Behind a line end, however it is written, the next line begins. -/
theorem after_lineEnd (p : Position) {ending : Text} (h : ending ∈ lineEnds) :
    p.after ending = ⟨p.line + 1, 1⟩ := by
  simp only [lineEnds, List.mem_cons, List.not_mem_nil, or_false] at h
  rcases h with rfl | rfl <;> rfl

/-! ## Cursors -/

/-- Two places in two spellings of one text. -/
structure Places (T : Respelling) (p p' : Place) : Prop where
  rest : p'.rest = T.text p.rest
  admits : T.Admits p.rest
  position : p'.position = p.position

/-- Two cursors in two spellings of one text, whose records lie at the same position. -/
structure Cursors (T : Respelling) (c c' : Cursor) : Prop where
  place : T.Places c.toPlace c'.toPlace
  furthest : c'.furthest.map Failure.position = c.furthest.map Failure.position

theorem cursors_start {s : Text} (h : T.Admits s) : T.Cursors (.start s) (.start (T.text s)) :=
  ⟨⟨rfl, h, rfl⟩, rfl⟩

variable {c c' : Cursor}

theorem Cursors.goTo (h : T.Cursors c c') {p p' : Place} (hp : T.Places p p') :
    T.Cursors (c.goTo p) (c'.goTo p') :=
  ⟨hp, h.furthest⟩

theorem Cursors.record (h : T.Cursors c c') {f f' : Failure} (hf : f'.position = f.position) :
    T.Cursors (c.record f) (c'.record f') := by
  refine ⟨by rw [record_toPlace, record_toPlace]; exact h.place, ?_⟩
  have positions := h.furthest
  unfold Cursor.record
  cases hc : c.furthest with
  | none =>
    rw [hc, Option.map_none, Option.map_eq_none_iff] at positions
    rw [positions]
    simp [hf]
  | some g =>
    rw [hc, Option.map_some, Option.map_eq_some_iff] at positions
    obtain ⟨g', hg, same⟩ := positions
    rw [hg]
    dsimp only
    rw [same, hf]
    split
    · simp [hf]
    · simp [hc, hg, same]

/-- Both cursors pass the same text. -/
theorem Places.pass {p p' : Place} (h : T.Places p p') {t t' r : Text} (ht : p.rest = t ++ r)
    (same : T.text t = t') (positions : ∀ q : Position, q.after t' = q.after t) :
    T.Places (p.pass t) (p'.pass t') := by
  have rest' : p'.rest = t' ++ T.text r := by rw [h.rest, ht, text_append, same]
  refine ⟨?_, ?_, ?_⟩
  · rw [Place.pass_rest ht, Place.pass_rest rest']
  · rw [Place.pass_rest ht]
    exact Admits.of_append (ht ▸ h.admits)
  · show p'.position.after t' = p.position.after t
    rw [h.position, positions]

theorem Cursors.pass_map (h : T.Cursors c c') {t r : Text} (ht : c.rest = t ++ r)
    (noEnd : '\n' ∉ t) : T.Cursors (c.pass t) (c'.pass (t.map T.char)) :=
  ⟨h.place.pass ht (text_eq_map noEnd) fun q => after_map q t, h.furthest⟩

/-! ## Parsers -/

variable {α β γ δ : Type}

/-- Two runs that end alike: with results of which the second is made from the first, or with
failures at the same position. -/
inductive Results (T : Respelling) (f : α → β) :
    EStateM.Result Failure Cursor α → EStateM.Result Failure Cursor β → Prop
  | ok {a : α} {d d' : Cursor} : T.Cursors d d' → Results T f (.ok a d) (.ok (f a) d')
  | error {g g' : Failure} {d d' : Cursor} :
      T.Cursors d d' → g'.position = g.position → Results T f (.error g d) (.error g' d')

/-- What `p` does on a text, `p'` does on its other spelling. -/
structure Carries (T : Respelling) (f : α → β) (p : Parser α) (p' : Parser β) : Prop where
  run : ∀ {c c' : Cursor}, T.Cursors c c' → T.Results f (p c) (p' c')

section

variable {f : α → β} {p : Parser α} {p' : Parser β}

theorem carries_pure (a : α) : T.Carries f (pure a) (pure (f a)) :=
  ⟨fun hc => .ok hc⟩

theorem Carries.bind {g : γ → δ} {k : α → Parser γ} {k' : β → Parser δ} (h : T.Carries f p p')
    (h' : ∀ a, T.Carries g (k a) (k' (f a))) : T.Carries g (p >>= k) (p' >>= k') := by
  refine ⟨fun {c c'} hc => ?_⟩
  have out := h.run hc
  rw [bind_apply, bind_apply]
  generalize p c = r, p' c' = r' at out ⊢
  cases out with
  | ok hd => exact (h' _).run hd
  | error hd same => exact .error hd same

theorem Carries.attempt (h : T.Carries f p p') : T.Carries f (attempt p) (attempt p') := by
  refine ⟨fun {c c'} hc => ?_⟩
  have out := h.run hc
  unfold Parser.attempt
  generalize p c = r, p' c' = r' at out ⊢
  cases out with
  | ok hd => exact .ok hd
  | error hd same => exact .error (hd.goTo hc.place) same

theorem Carries.optional (h : T.Carries f p p') :
    T.Carries (Option.map f) (optional p) (optional p') := by
  refine ⟨fun {c c'} hc => ?_⟩
  have out := h.attempt.run hc
  unfold Parser.optional
  generalize Parser.attempt p c = r, Parser.attempt p' c' = r' at out ⊢
  cases out with
  | ok hd => exact .ok hd
  | error hd same => exact .ok hd

/-- Behind an optional parser, each of the two ways on is looked at alone. -/
theorem Carries.bind_optional {g : γ → δ} {k : Option α → Parser γ} {k' : Option β → Parser δ}
    (h : T.Carries f p p') (none : T.Carries g (k none) (k' none))
    (some : ∀ a, T.Carries g (k (some a)) (k' (some (f a)))) :
    T.Carries g (Parser.optional p >>= k) (Parser.optional p' >>= k') :=
  h.optional.bind fun o => match o with
    | .none => none
    | .some a => some a

theorem Carries.sees (h : T.Carries f p p') : T.Carries id (sees p) (sees p') := by
  refine ⟨fun {c c'} hc => ?_⟩
  have out := h.run hc
  unfold Parser.sees
  generalize p c = r, p' c' = r' at out ⊢
  cases out with
  | ok hd => exact .ok (hd.goTo hc.place)
  | error hd same => exact .ok (hd.goTo hc.place)

/-- Progress is progress in both spellings. -/
theorem Cursors.left_lt_iff {c c' d d' : Cursor} (hc : T.Cursors c c') (hd : T.Cursors d d')
    (leads : c.toPlace.Leads d.toPlace) : d'.left < c'.left ↔ d.left < c.left := by
  obtain ⟨t, ht, -⟩ := leads
  have ht' : c'.rest = T.text t ++ d'.rest := by
    rw [hc.place.rest, ht, text_append, hd.place.rest]
  have isEmpty : (T.text t).length = 0 ↔ t.length = 0 := by
    rw [List.length_eq_zero_iff, List.length_eq_zero_iff, text_eq_nil_iff]
  rw [d.left_eq, c.left_eq, d'.left_eq, c'.left_eq, ht, ht', List.length_append,
    List.length_append]
  omega

theorem Carries.run_many [hp : Regular p] (h : T.Carries f p p') {c c' : Cursor}
    (hc : T.Cursors c c') : T.Results (List.map f) (many p c) (many p' c') := by
  have out {ε : Type} (q : Parser ε) (d : Cursor) :
      Parser.many q d = .ok (repeatFrom q d).1 (repeatFrom q d).2 := rfl
  have first := h.attempt.run hc
  rw [out, out, repeatFrom_eq, repeatFrom_eq]
  have leads (a : α) (d : Cursor) (hd : Parser.attempt p c = .ok a d) : c.toPlace.Leads d.toPlace :=
    (Regular.of_ok hd).2
  generalize Parser.attempt p c = r, Parser.attempt p' c' = r' at first leads ⊢
  cases first with
  | error hd same => exact .ok hd
  | @ok a d d' hd =>
    have progress := hc.left_lt_iff hd (leads a d rfl)
    dsimp only
    by_cases shorter : d.left < c.left
    · rw [if_pos shorter, if_pos (progress.mpr shorter)]
      have others := h.run_many hd
      rw [out, out] at others
      generalize repeatFrom p d = s, repeatFrom p' d' = s' at others ⊢
      obtain ⟨as, m⟩ := s
      obtain ⟨bs, m'⟩ := s'
      cases others with
      | ok hm => exact .ok hm
    · rw [if_neg shorter, if_neg (mt progress.mp shorter)]
      exact .ok hd
termination_by c.left

theorem Carries.many [Regular p] (h : T.Carries f p p') :
    T.Carries (List.map f) (many p) (many p') :=
  ⟨fun hc => h.run_many hc⟩

theorem Carries.firstOf_pair {q : Parser α} {q' : Parser β} (h : T.Carries f p p')
    (h' : T.Carries f q q') : T.Carries f (firstOf [p, q]) (firstOf [p', q']) := by
  refine ⟨fun {c c'} hc => ?_⟩
  have out := h.attempt.run hc
  rw [firstOf_cons_cons, firstOf_cons_cons]
  generalize Parser.attempt p c = r, Parser.attempt p' c' = r' at out ⊢
  cases out with
  | ok hd => exact .ok hd
  | error hd same => exact h'.attempt.run hd

/-- Two readings that end alike. -/
inductive Outcomes (f : α → β) : Except Failure α → Except Failure β → Prop
  | ok (a : α) : Outcomes f (.ok a) (.ok (f a))
  | error {g g' : Failure} : g'.position = g.position → Outcomes f (.error g) (.error g')

end

/-! ## Primitives -/

theorem carries_fail {f : α → β} (what what' : Expectation) :
    T.Carries f (fail what) (fail what') :=
  ⟨fun hc => .error (hc.record hc.place.position) hc.place.position⟩

theorem carries_endOfInput : T.Carries id endOfInput endOfInput := by
  refine ⟨fun {c c'} hc => ?_⟩
  have rest := hc.place.rest
  unfold Parser.endOfInput
  cases hr : c.rest with
  | nil =>
    rw [rest, hr, text_nil]
    exact .ok hc
  | cons found r =>
    have nonempty : c'.rest ≠ [] := by
      rw [rest, hr]
      exact mt text_eq_nil_iff.mp (List.cons_ne_nil found r)
    obtain ⟨found', r', hr'⟩ := List.exists_cons_of_ne_nil nonempty
    rw [hr']
    exact .error (hc.record hc.place.position) hc.place.position

/-- The whole of a text is read as the whole of its other spelling is. -/
theorem Carries.complete {f : α → β} {p : Parser α} {p' : Parser β} (h : T.Carries f p p')
    {s : Text} (hs : T.Admits s) : Outcomes f (complete p s) (complete p' (T.text s)) := by
  have whole : T.Carries f (do let a ← p; endOfInput; return a)
      (do let a ← p'; endOfInput; return a) :=
    h.bind fun _ => carries_endOfInput.bind fun _ => carries_pure _
  have out := whole.run (cursors_start hs)
  unfold Parser.complete
  generalize (do let a ← p; endOfInput; return a : Parser α) (.start s) = r,
    (do let a ← p'; endOfInput; return a : Parser β) (.start (T.text s)) = r' at out ⊢
  cases out with
  | ok hd => exact .ok _
  | @error g g' d d' hd same =>
    refine .error ?_
    have positions := hd.furthest
    cases hk : d.furthest with
    | none =>
      rw [hk, Option.map_none, Option.map_eq_none_iff] at positions
      rw [positions]
      exact same
    | some k =>
      rw [hk, Option.map_some, Option.map_eq_some_iff] at positions
      obtain ⟨k', hk', same'⟩ := positions
      rw [hk']
      exact same'

/-- A class that is met at the same places is read at the same places. -/
theorem carries_satisfy {what what' : Expectation} {holds holds' : Char → Bool}
    (h : T.Respects holds holds') :
    T.Carries T.char (satisfy what holds) (satisfy what' holds') := by
  refine ⟨fun {c c'} hc => ?_⟩
  have rest := hc.place.rest
  have failed := (carries_fail (f := T.char) what what').run hc
  unfold Parser.satisfy
  cases hr : c.rest with
  | nil =>
    rw [rest, hr, text_nil]
    exact failed
  | cons found r =>
    rw [rest, hr]
    dsimp only
    rcases text_cons (T := T) found r with spelled | ⟨rfl, spelled⟩
    · rw [spelled]
      dsimp only
      by_cases hf : holds found = true
      · rw [if_pos hf, if_pos ((h.same found).trans hf)]
        have noEnd : '\n' ∉ [found] := by
          rintro mem
          rw [← List.mem_singleton.mp mem, h.lineFeed] at hf
          cases hf
        exact .ok (hc.pass_map hr noEnd)
      · rw [if_neg hf, if_neg (by rwa [h.same])]
        exact failed
    · rw [spelled]
      dsimp only
      rw [if_neg (by simp [h.lineFeed]), if_neg (by simp [h.return_'])]
      exact failed

theorem takeWhile_text {holds holds' : Char → Bool} (h : T.Respects holds holds') (s : Text) :
    (T.text s).takeWhile holds' = (s.takeWhile holds).map T.char := by
  induction s with
  | nil => rfl
  | cons c s ih =>
    rcases text_cons (T := T) c s with spelled | ⟨rfl, spelled⟩
    · rw [spelled, List.takeWhile_cons, List.takeWhile_cons, h.same, ih]
      split <;> rfl
    · rw [spelled, List.takeWhile_cons_of_neg (by simp [h.return_']),
        List.takeWhile_cons_of_neg (by simp [h.lineFeed])]
      rfl

theorem carries_takeWhile {holds holds' : Char → Bool} (h : T.Respects holds holds') :
    T.Carries (List.map T.char) (takeWhile holds) (takeWhile holds') := by
  refine ⟨fun {c c'} hc => ?_⟩
  have noEnd : '\n' ∉ c.rest.takeWhile holds := by
    intro mem
    have holds := List.all_eq_true.mp List.all_takeWhile _ mem
    rw [h.lineFeed] at holds
    cases holds
  unfold Parser.takeWhile Cursor.skipWhile
  rw [hc.place.rest, takeWhile_text h]
  exact .ok (hc.pass_map (takeWhile_append_dropWhile' holds c.rest) noEnd)

/-- A text without line ends begins the other spelling if and only if it begins the first. -/
theorem isPrefixOf_text {t : Text} (lineFeed : '\n' ∉ t) (return_ : '\r' ∉ t) (s : Text) :
    (t.map T.char).isPrefixOf (T.text s) = t.isPrefixOf s := by
  induction t generalizing s with
  | nil => simp
  | cons d t ih =>
    rw [List.mem_cons, not_or] at lineFeed return_
    cases s with
    | nil => rfl
    | cons c s =>
      rcases text_cons (T := T) c s with spelled | ⟨rfl, spelled⟩
      · rw [spelled, List.map_cons, List.isPrefixOf, List.isPrefixOf, ih lineFeed.2 return_.2]
        congr 1
        rw [Bool.eq_iff_iff, beq_iff_eq, beq_iff_eq]
        exact ⟨fun h => T.char_injective h, congrArg T.char⟩
      · have differs : T.char d ≠ '\r' := fun h =>
          return_.1 (T.char_injective (h.trans char_return.symm)).symm
        rw [spelled, List.map_cons, List.isPrefixOf, List.isPrefixOf,
          beq_eq_false_iff_ne.mpr differs,
          beq_eq_false_iff_ne.mpr (Ne.symm lineFeed.1)]
        rfl

theorem carries_eat {t : Text} (lineFeed : '\n' ∉ t) (return_ : '\r' ∉ t) :
    T.Carries id (eat t) (eat (t.map T.char)) := by
  refine ⟨fun {c c'} hc => ?_⟩
  unfold Parser.eat
  rw [hc.place.rest, isPrefixOf_text lineFeed return_]
  by_cases h : t.isPrefixOf c.rest = true
  · obtain ⟨r, hr⟩ := List.isPrefixOf_iff_prefix.mp h
    rw [if_pos h, if_pos h]
    exact .ok (hc.pass_map hr.symm lineFeed)
  · rw [if_neg h, if_neg h]
    exact (carries_fail _ _).run hc

/-- A text of characters that are spelled alike. -/
theorem carries_eat_same {t : Text} (same : t.map T.char = t) (lineFeed : '\n' ∉ t)
    (return_ : '\r' ∉ t) : T.Carries id (eat t) (eat t) := by
  have := carries_eat (T := T) lineFeed return_
  rwa [same] at this

theorem carries_choose {what : Expectation} {spelling : α → Text} {options : List α}
    (same : ∀ option, (spelling option).map T.char = spelling option)
    (lineFeed : ∀ option, '\n' ∉ spelling option)
    (return_ : ∀ option, '\r' ∉ spelling option) :
    T.Carries id (choose what spelling options) (choose what spelling options) := by
  refine ⟨fun {c c'} hc => ?_⟩
  have found : (options.find? fun option => (spelling option).isPrefixOf c'.rest) =
      options.find? fun option => (spelling option).isPrefixOf c.rest := by
    congr 1
    funext option
    rw [← isPrefixOf_text (T := T) (lineFeed option) (return_ option) c.rest, same, ← hc.place.rest]
  unfold Parser.choose
  rw [found]
  cases ho : options.find? fun option => (spelling option).isPrefixOf c.rest with
  | none => exact (carries_fail what what).run hc
  | some option =>
    have isPrefix : (spelling option).isPrefixOf c.rest = true := by
      simpa using List.find?_some ho
    obtain ⟨r, hr⟩ := List.isPrefixOf_iff_prefix.mp isPrefix
    have passed := hc.pass_map hr.symm (lineFeed option)
    rw [same option] at passed
    exact .ok passed

/-- A grammar that looks at the next character goes on alike if it does so on every text. -/
theorem carries_peek_bind {g : γ → δ} {k : Option Char → Parser γ} {k' : Option Char → Parser δ}
    (h : ∀ s : Text, T.Carries g (k s.head?) (k' (T.text s).head?)) :
    T.Carries g (peek >>= k) (peek >>= k') := by
  refine ⟨fun {c c'} hc => ?_⟩
  have ahead : c'.rest.head? = (T.text c.rest).head? := congrArg List.head? hc.place.rest
  show T.Results g (k c.rest.head? c) (k' c'.rest.head? c')
  rw [ahead]
  exact (h c.rest).run hc

end Respelling

end DockerfileSyntax
