import DockerfileSyntax.Proofs.Arg.Trail
import DockerfileSyntax.Proofs.Keywords
import DockerfileSyntax.Proofs.Reading.Local

/-!
# What stands before the name of a build argument

The heading of an instruction and the white space behind it end where the name begins, and the name
has no part in how they are read: `run_beginning_of_startsName` puts any other name there. The
keyword looks no further than it reads; what follows it is local, so that only the first character
of the name counts.
-/

namespace DockerfileSyntax

namespace Grammar

open DockerfileSyntax.Parser

/-- A character at which everything before a name stops. -/
structure StartsName (e c : Char) : Prop where
  notBlank : isInlineBlank c = false
  inLine : isLineEnd c = false
  notComment : c ≠ '#'
  notEscape : c ≠ e

section Blindness

variable {e : Char}

theorem blind_newLine : Blind (StartsName e) newLine := by
  refine Blind.of_reads fun {y c r nl m} hc hr => ?_
  obtain ⟨isEnd, hs⟩ := run_newLine_eq_some.mp hr
  have notEnd : c ≠ '\n' ∧ c ≠ '\r' := by
    have inLine := hc.inLine
    simpa [isLineEnd] using inLine
  simp only [lineEnds, List.mem_cons, List.not_mem_nil, or_false] at isEnd
  rcases isEnd with rfl | rfl
  · rcases y with _ | ⟨d, _ | ⟨d', y⟩⟩
    · exact absurd (List.cons.inj hs).1 notEnd.2
    · exact absurd (List.cons.inj (List.cons.inj hs).2).1 notEnd.1
    · obtain ⟨rfl, behind⟩ := List.cons.inj hs
      obtain ⟨rfl, rfl⟩ := List.cons.inj behind
      exact ⟨y, rfl, fun c' r' _ => run_newLine_eq_some.mpr ⟨by decide, rfl⟩⟩
  · cases y with
    | nil => exact absurd (List.cons.inj hs).1 notEnd.1
    | cons d y =>
      obtain ⟨rfl, rfl⟩ := List.cons.inj hs
      exact ⟨y, rfl, fun c' r' _ => run_newLine_eq_some.mpr ⟨by decide, rfl⟩⟩

theorem blind_blanks : Blind (StartsName e) blanks :=
  blind_takeWhile fun _ h => h.notBlank

theorem blind_blankRun : Blind (StartsName e) blankRun :=
  blind_blanks.bind fun _ => blind_pure _

theorem optionalNewLine_eq :
    optionalNewLine = do
      let found ← optional newLine
      return found.elim [] fun text => [.newLine text] := by
  unfold optionalNewLine
  refine bind_congr fun o => ?_
  cases o <;> rfl

theorem blind_optionalNewLine : Blind (StartsName e) optionalNewLine := by
  rw [optionalNewLine_eq]
  exact blind_newLine.optional.bind fun _ => blind_pure _

theorem blind_whitespace : Blind (StartsName e) whitespace :=
  blind_blanks.bind fun _ => blind_optionalNewLine.bind fun _ => blind_pure _

theorem blind_continuation : Blind (StartsName e) (continuation e) :=
  Blind.attempt <| (blind_eat fun _ h => h.notEscape).bind fun _ => blind_blanks.bind fun _ =>
    blind_newLine.bind fun _ => blind_pure _

theorem blind_keywordEnd : Blind (StartsName e) (keywordEnd e) := by
  refine Blind.of_reads fun {y c r u m} hc hr => ?_
  rw [keywordEnd_eq] at hr
  obtain ⟨o, m', ho, hr⟩ := run_bind_eq_some.mp hr
  rw [run_peek] at ho
  cases ho
  split at hr
  · next ends =>
    obtain ⟨rfl, rfl⟩ := run_pure_eq_some.mp hr
    refine ⟨y, rfl, fun c' r' _ => ?_⟩
    cases y with
    | nil =>
      have := hc.notEscape
      simp [hc.notBlank, hc.inLine, this] at ends
    | cons d y =>
      rw [keywordEnd_eq]
      have ends' : (some d).all (fun c => isInlineBlank c || isLineEnd c || c == e) = true := ends
      refine run_bind_eq_some.mpr ⟨some d, _, rfl, ?_⟩
      rw [if_pos ends']
      rfl
  · cases hr

theorem run_comment_of_head_ne {s : Text} (h : s.head? ≠ some '#') : run comment s = none := by
  rw [Option.eq_none_iff_forall_ne_some]
  rintro ⟨text, r⟩ hr
  obtain ⟨m, rfl⟩ := head_of_run_comment hr
  exact h rfl

theorem run_comment_cons (m : Text) :
    run comment ('#' :: m) = run (takeWhile fun c => !isLineEnd c) ('#' :: m) := rfl

/-- A comment reads to the end of its line, and so perhaps into the name. -/
theorem local_comment : Local (StartsName e) comment := by
  have line : Local (StartsName e) (takeWhile fun c => !isLineEnd c) :=
    local_takeWhile fun c hc => by simp [hc.inLine]
  -- whether a comment begins here is seen before the name, since no name begins with its mark
  refine ⟨fun {y c r c' r'} hc hc' hr => ?_, fun {y c r text m} hc hr hm => ?_⟩
  · refine run_comment_of_head_ne ?_
    cases y with
    | nil => exact fun hd => hc'.notComment (Option.some.inj hd)
    | cons d y =>
      intro hd
      obtain rfl : d = '#' := Option.some.inj hd
      rw [List.cons_append, run_comment_cons, run_takeWhile] at hr
      cases hr
  · obtain ⟨s, hs⟩ := head_of_run_comment hr
    cases y with
    | nil => exact absurd (List.cons.inj hs).1 hc.notComment
    | cons d y =>
      obtain ⟨rfl, -⟩ := List.cons.inj hs
      exact line.reads hc hr hm

theorem total_optionalNewLine : Total optionalNewLine := by
  rw [optionalNewLine_eq]
  exact (total_optional _).bind fun _ => total_pure _

theorem local_commentLine : Local (StartsName e) commentLine :=
  Local.attempt <| Local.bind_of_blind blind_whitespace fun _ =>
    local_comment.bind_of_total
      (fun _ => Local.bind_of_blind blind_optionalNewLine fun _ => (blind_pure _).isLocal)
      fun _ => total_optionalNewLine.bind fun _ => total_pure _

theorem blind_blankLine : Blind (StartsName e) blankLine :=
  Blind.attempt <| blind_blanks.bind fun _ => blind_newLine.bind fun _ => blind_pure _

theorem local_interludes : Local (StartsName e) interludes :=
  (local_commentLine.firstOf_pair blind_blankLine.isLocal).many.bind_of_total
    (fun _ => (blind_pure _).isLocal) fun _ => total_pure _

end Blindness

/-! ## Headings -/

/-- What stands between the keyword and the name. -/
def nameGap (e : Char) : Parser (List Trivia) := do
  keywordEnd e
  let gap ← blankRun
  match ← optional (continuation e) with
  | none =>
    let before ← blankRun
    return gap ++ before
  | some break_ =>
    let below ← interludes
    let before ← blankRun
    return gap ++ .continuation break_ :: below ++ before

/-- Everything before the name. -/
def beginning (e : Char) : Parser Heading := do
  let lead ← blankRun
  let found ← keyword e ['A', 'R', 'G']
  let gap ← nameGap e
  return ⟨lead, found, gap⟩

theorem arg_eq (e : Char) :
    arg e = do
      let heading ← beginning e
      let body ← argBody e
      let trail ← ending e
      return ⟨heading, body.1, body.2, trail, e⟩ := by
  simp only [arg, heading, framed_eq, beginning, nameGap, bind_assoc, pure_bind]
  refine bind_congr fun lead => bind_congr fun found => bind_congr fun _ => bind_congr fun gap => ?_
  refine bind_congr fun o => ?_
  cases o <;> simp only [bind_assoc, pure_bind]

section Headings

variable {e : Char}

theorem total_blankRun : Total blankRun :=
  (total_takeWhile _).bind fun _ => total_pure _

instance regular_nameGap (e : Char) : Regular (nameGap e) := by
  unfold nameGap
  infer_instance

theorem lossless_nameGap (e : Char) : Lossless (nameGap e) triviaText := by
  refine Keeps.bind (lossless_keywordEnd e) fun _ => Keeps.bind lossless_blankRun fun gap => ?_
  refine Keeps.bind_optional (lossless_continuation e) ?_ fun break_ => ?_
  · exact Keeps.bind lossless_blankRun fun before => Keeps.pure (by simp)
  · exact Keeps.bind lossless_interludes fun below => Keeps.bind lossless_blankRun fun before =>
      Keeps.pure (by simp [Trivia.toToken])

theorem local_nameGap : Local (StartsName e) (nameGap e) := by
  refine Local.bind_of_blind blind_keywordEnd fun _ => ?_
  refine Local.bind_of_blind blind_blankRun fun gap => ?_
  refine Local.bind_optional blind_continuation ?_ fun break_ => ?_
  · exact (blind_blankRun.bind fun _ => blind_pure _).isLocal
  · refine local_interludes.bind_of_total (fun below => ?_) fun below => ?_
    · exact (blind_blankRun.bind fun _ => blind_pure _).isLocal
    · exact total_blankRun.bind fun _ => total_pure _

/-- The trivia before a name are read before any other name as well. -/
theorem run_nameGap_of_startsName {s r r' : Text} {c c' : Char} {ts : List Trivia}
    (h : run (nameGap e) s = some (ts, c :: r)) (hc : StartsName e c) (hc' : StartsName e c') :
    run (nameGap e) (triviaText ts ++ c' :: r') = some (ts, c' :: r') := by
  obtain rfl : s = triviaText ts ++ c :: r := (lossless_nameGap e).append_eq h
  obtain ⟨z, hz, same⟩ := local_nameGap.reads hc h (by simp)
  obtain rfl : z = [] := List.self_eq_append_left.mp hz
  exact same c' r' hc'

theorem apart_of_isEscape (he : IsEscape e) :
    ∀ letter ∈ ['R', 'G'], sameLetter e letter = false := by
  rcases he with rfl | rfl
  · exact List.forall_mem_cons.mpr ⟨by decide, List.forall_mem_cons.mpr ⟨by decide, by simp⟩⟩
  · exact List.forall_mem_cons.mpr ⟨by decide, List.forall_mem_cons.mpr ⟨by decide, by simp⟩⟩

/-- The heading before a name is read before any other name as well. -/
theorem run_beginning_of_startsName (he : IsEscape e) {s r r' : Text} {c c' : Char} {h : Heading}
    (hr : run (beginning e) s = some (h, c :: r)) (hc : StartsName e c) (hc' : StartsName e c') :
    run (beginning e) (Token.renderAll h.tokens ++ c' :: r') = some (h, c' :: r') := by
  obtain ⟨lead, m, hl, hr⟩ := run_bind_eq_some.mp hr
  obtain ⟨found, m', hk, hr⟩ := run_bind_eq_some.mp hr
  obtain ⟨gap, m₂, hg, hr⟩ := run_bind_eq_some.mp hr
  obtain ⟨rfl, rfl⟩ := run_pure_eq_some.mp hr
  obtain ⟨blanks, blank, stop, rfl, rfl⟩ := run_blankRun_sound hl
  obtain rfl : m = found.render ++ m' := (lossless_keyword e _).append_eq hk
  obtain ⟨d, t, text, again⟩ := run_keyword_of_run (apart_of_isEscape he) hk
  have text' : Token.renderAll (Heading.tokens ⟨Trivia.ofBlanks blanks, found, gap⟩) ++ c' :: r' =
      blanks ++ (found.render ++ (triviaText gap ++ c' :: r')) := by
    simp [Heading.tokens, triviaText, Keyword.render]
  rw [text']
  -- the white space before the keyword stops at its first letter, which is the same
  have notBlank : isInlineBlank d = false := stop d (by rw [text]; rfl)
  have first : run blankRun (blanks ++ (found.render ++ (triviaText gap ++ c' :: r'))) =
      some (Trivia.ofBlanks blanks, found.render ++ (triviaText gap ++ c' :: r')) := by
    refine run_bind_eq_some.mpr ⟨blanks, _, run_blanks_append blank fun c hc => ?_, rfl⟩
    rw [text] at hc
    rwa [← Option.some.inj hc]
  refine run_bind_eq_some.mpr ⟨_, _, first, ?_⟩
  refine run_bind_eq_some.mpr ⟨found, _, again _, ?_⟩
  exact run_bind_eq_some.mpr ⟨gap, _, run_nameGap_of_startsName hg hc hc', rfl⟩

end Headings

end Grammar

end DockerfileSyntax
