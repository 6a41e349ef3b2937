import DockerfileSyntax.Proofs.Failures.Furthest

/-!
# Sessions with a cursor

A grammar moves a cursor over one character or a run of them, saves places, goes back to places that
it has saved, and records failures. Whatever it does, the cursor stays between two characters of the
text: the offset counts the bytes before it, the line the line ends, the column the characters since
the last of them, and what is left is the rest of the text.

1. `Session.Sound.step`: no command leaves the places of the text.
2. `Session.sound_run`: no sequence of commands does.
3. `Session.places_are_coherent`: what offsets, lines, columns and the rest are at these places, and
   that positions are ordered as offsets are.
-/

namespace DockerfileSyntax

/-! ## Commands -/

/-- What a grammar may do with its cursor. -/
inductive Command where
  | advance
  | takeWhile (holds : Char → Bool)
  /-- saves the place of the cursor -/
  | save
  /-- goes to a saved place, by its number; there is nothing to go to if none has it -/
  | restore (number : Nat)
  /-- fails for want of something, which records the failure -/
  | expect (what : Expectation)

/-- A cursor and the places saved from it, the first one first. -/
structure Session where
  cursor : Cursor
  saved : List Place

namespace Session

/-- A session at the beginning of a text. -/
def start (text : Text) : Session := ⟨.start text, []⟩

/-- What is left of a session behind one more command. -/
def step (s : Session) : Command → Session
  | .advance => { s with cursor := s.cursor.advance }
  | .takeWhile holds => { s with cursor := s.cursor.skipWhile holds }
  | .save => { s with saved := s.saved ++ [s.cursor.toPlace] }
  | .restore number =>
    match s.saved[number]? with
    | some place => { s with cursor := s.cursor.goTo place }
    | none => s
  | .expect what => { s with cursor := s.cursor.record (s.cursor.failure what) }

/-- A session from the beginning of a text. -/
def run (text : Text) (commands : List Command) : Session :=
  commands.foldl step (start text)

/-- The place of the cursor and the places saved. -/
def places (s : Session) : List Place := s.cursor.toPlace :: s.saved

end Session

/-! ## Places of a text -/

/-- What stands behind the first bytes of a text; none if they end within a character or there are
not so many. -/
def Text.behind? : Text → Nat → Option Text
  | t, 0 => some t
  | [], _ + 1 => none
  | c :: t, bytes + 1 =>
    if c.utf8Size ≤ bytes + 1 then behind? t (bytes + 1 - c.utf8Size) else none

theorem Text.behind?_append (s t : Text) :
    Text.behind? (s ++ t) s.utf8Length = some t := by
  induction s with
  | nil => cases t <;> rfl
  | cons c s ih =>
    have positive := c.utf8Size_pos
    obtain ⟨bytes, total⟩ : ∃ bytes, utf8Length (c :: s) = bytes + 1 :=
      Nat.exists_eq_succ_of_ne_zero (by rw [utf8Length_cons]; omega)
    have fits : c.utf8Size ≤ bytes + 1 := by rw [← total, utf8Length_cons]; omega
    rw [total, List.cons_append, behind?, if_pos fits, ← total, utf8Length_cons,
      Nat.add_sub_cancel_left]
    exact ih

/-- The place lies behind a whole number of leading characters of a text, and what is left is the
rest of the text: its offset is their length in bytes, by which the rest can be cut off too, its
line counts the line ends among them and its column the characters since the last of these. -/
def Place.LiesIn (text : Text) (p : Place) : Prop :=
  ∃ before : Text, text = before ++ p.rest ∧ p.offset = before.utf8Length ∧
    text.behind? p.offset = some p.rest ∧ p.position.line = 1 + before.count '\n' ∧
    p.position.column = 1 + before.sinceLineEnd

/-- Where the beginning of a text leads, the offset, the position and the rest are those behind some
characters of it. -/
theorem Place.Leads.exists_split {text : Text} {p : Place} (h : (Place.start text).Leads p) :
    ∃ before : Text, text = before ++ p.rest ∧ p.offset = before.utf8Length ∧
      p.position = Position.start.after before := by
  obtain ⟨before, split, rfl⟩ := h
  exact ⟨before, split, Nat.zero_add _, rfl⟩

theorem Place.Leads.liesIn {text : Text} {p : Place} (h : (Place.start text).Leads p) :
    p.LiesIn text := by
  obtain ⟨before, split, offset, position⟩ := h.exists_split
  refine ⟨before, split, offset, ?_, ?_, ?_⟩
  · rw [offset]
    conv => lhs; rw [split]
    exact Text.behind?_append before p.rest
  · rw [position, Position.start_after]
  · rw [position, Position.start_after]

/-- Of two places of a text, the one at the earlier position has the smaller offset. -/
theorem Place.Leads.position_iff_offset {text : Text} {p q : Place}
    (hp : (Place.start text).Leads p) (hq : (Place.start text).Leads q) :
    (p.position < q.position ↔ p.offset < q.offset) ∧
      (p.position = q.position ↔ p.offset = q.offset) := by
  obtain ⟨s, hs, offset, position⟩ := hp.exists_split
  obtain ⟨t, ht, offset', position'⟩ := hq.exists_split
  rw [offset, offset', position, position']
  have isPrefix : s <+: text := ⟨_, hs.symm⟩
  have isPrefix' : t <+: text := ⟨_, ht.symm⟩
  refine ⟨Position.after_lt_after_iff isPrefix isPrefix', ?_⟩
  rcases Position.after_lt_after_cases (p := .start) isPrefix isPrefix' with
    rfl | ⟨earlier, less⟩ | ⟨later, greater⟩
  · simp
  · exact iff_of_false (fun e => Position.lt_irrefl _ (e ▸ earlier)) (Nat.ne_of_lt less)
  · exact iff_of_false (fun e => Position.lt_irrefl _ (e ▸ later)) (Nat.ne_of_gt greater)

/-! ## Sessions -/

namespace Session

variable {text : Text} {s : Session}

/-- The cursor and the saved places are places of the text, and the failure recorded arises at
one. -/
structure Sound (text : Text) (s : Session) : Prop where
  leads : ∀ p ∈ s.places, (Place.start text).Leads p
  arises : ∀ f, s.cursor.furthest = some f → ∃ p, (Place.start text).Leads p ∧ f.ArisesAt p

theorem Sound.cursor (h : s.Sound text) : (Place.start text).Leads s.cursor.toPlace :=
  h.leads _ List.mem_cons_self

theorem Sound.of_saved (h : s.Sound text) {p : Place} (hp : p ∈ s.saved) :
    (Place.start text).Leads p :=
  h.leads p (List.mem_cons_of_mem _ hp)

theorem sound_start (text : Text) : (start text).Sound text where
  leads p hp := by
    cases List.mem_singleton.mp hp
    exact Place.leads_refl _
  arises _ h := by cases h

/-- The cursor may move to a place of the text, with the record that it has. -/
theorem Sound.goTo (h : s.Sound text) {p : Place} (hp : (Place.start text).Leads p) :
    ({ s with cursor := s.cursor.goTo p } : Session).Sound text where
  leads := List.forall_mem_cons.mpr ⟨hp, fun _ => h.of_saved⟩
  arises := h.arises

/-- The cursor may pass a beginning of what is left. -/
theorem Sound.pass (h : s.Sound text) {t r : Text} (ht : s.cursor.rest = t ++ r) :
    ({ s with cursor := s.cursor.pass t } : Session).Sound text :=
  h.goTo (h.cursor.trans (Place.leads_pass ht))

/-- The failure recorded, if it is new, arises where the cursor is. -/
theorem Sound.record (h : s.Sound text) {f : Failure} (here : f.ArisesAt s.cursor.toPlace) :
    ({ s with cursor := s.cursor.record f } : Session).Sound text where
  leads := by
    rw [places, Parser.record_toPlace]
    exact h.leads
  arises g hg := by
    rw [Parser.record_furthest] at hg
    cases recorded : s.cursor.furthest with
    | none =>
      rw [recorded] at hg
      cases hg
      exact ⟨_, h.cursor, here⟩
    | some old =>
      rw [recorded, Parser.furthestOf] at hg
      split at hg <;> cases hg
      · exact ⟨_, h.cursor, here⟩
      · exact h.arises g recorded

/-- No command leaves the places of the text. -/
theorem Sound.step (h : s.Sound text) (command : Command) : (s.step command).Sound text := by
  cases command with
  | advance => exact h.pass (List.take_append_drop 1 s.cursor.rest).symm
  | takeWhile holds => exact h.pass (Parser.takeWhile_append_dropWhile' holds s.cursor.rest)
  | save =>
    refine ⟨List.forall_mem_cons.mpr ⟨h.cursor, fun p hp => ?_⟩, h.arises⟩
    rcases List.mem_append.mp hp with hp | hp
    · exact h.of_saved hp
    · cases List.mem_singleton.mp hp
      exact h.cursor
  | restore number =>
    rw [Session.step]
    split
    · next place found => exact h.goTo (h.of_saved (List.mem_of_getElem? found))
    · exact h
  | expect what => exact h.record (Parser.arisesAt_failure s.cursor what)

/-- No sequence of commands leaves the places of the text. -/
theorem sound_run (text : Text) (commands : List Command) : (run text commands).Sound text := by
  unfold run
  generalize hs : start text = s
  have h : s.Sound text := hs ▸ sound_start text
  clear hs
  induction commands generalizing s with
  | nil => exact h
  | cons command commands ih => exact ih (s.step command) (h.step command)

/-- Whatever is done with a cursor, it and the places saved from it lie behind whole numbers of
leading characters of the text, with the offset, line, column and rest that belong there; the
failure recorded stands at such a place; and of any two places that are reached in a text, by one
sequence of commands or by two, the order of the positions is the order of the offsets. -/
theorem places_are_coherent (text : Text) :
    (∀ commands, ∀ p ∈ (run text commands).places, p.LiesIn text) ∧
    (∀ commands failure, (run text commands).cursor.furthest = some failure →
      ∃ before rest, text = before ++ rest ∧ failure.StandsAt before rest) ∧
    ∀ commands commands', ∀ p ∈ (run text commands).places, ∀ q ∈ (run text commands').places,
      (p.position < q.position ↔ p.offset < q.offset) ∧
      (p.position = q.position ↔ p.offset = q.offset) := by
  refine ⟨fun commands p hp => ((sound_run text commands).leads p hp).liesIn,
    fun commands failure recorded => ?_, fun commands commands' p hp q hq => ?_⟩
  · obtain ⟨place, leads, here⟩ := (sound_run text commands).arises failure recorded
    obtain ⟨before, rest, split, -, stands⟩ := Failure.standsAt_of_arisesAt leads here
    exact ⟨before, rest, split, stands⟩
  · exact ((sound_run text commands).leads p hp).position_iff_offset
      ((sound_run text commands').leads q hq)

/-- In `é`, a line end and `x`, a cursor that is saved at the beginning, moved to the end and taken
back has offset 0; the place before `x` has offset 3 and is the first of line 2. -/
theorem places_are_coherent_sample :
    let text : Text := ['é', '\n', 'x']
    let back := run text [.save, .takeWhile fun _ => true, .expect .literal, .restore 0]
    let below := run text [.advance, .advance]
    back.cursor.offset = 0 ∧ below.cursor.offset = 3 ∧ below.cursor.position = ⟨2, 1⟩ ∧
      below.cursor.toPlace.LiesIn text ∧
      (∃ failure before rest, back.cursor.furthest = some failure ∧ text = before ++ rest ∧
        failure.StandsAt before rest) ∧
      (back.cursor.position < below.cursor.position ↔
        back.cursor.offset < below.cursor.offset) := by
  intro text back below
  obtain ⟨lies, recorded, ordered⟩ := places_are_coherent text
  obtain ⟨before, rest, split, stands⟩ := recorded
    [.save, .takeWhile fun _ => true, .expect .literal, .restore 0] _ rfl
  have same := ordered _ _ back.cursor.toPlace List.mem_cons_self below.cursor.toPlace
    List.mem_cons_self
  exact ⟨rfl, rfl, rfl, lies [.advance, .advance] _ List.mem_cons_self,
    ⟨_, before, rest, rfl, split, stands⟩, same.1⟩

end Session

end DockerfileSyntax
