import DockerfileSyntax.Proofs.NormalForm.Reached
import DockerfileSyntax.Proofs.Respelling.EscapeCharacter

/-!
# Edits where the other escape character is in use

The escape character is configuration and nothing else. A text is read where the backslash escapes
as the text with backslashes and backticks swapped is read where the backtick does, and any edits
that follow, their arguments swapped, succeed or fail alike and leave trees that are alike.

1. `Literal.setContent_alike`: a new value is read alike, since its grammar is.
2. `Arg.Normal.run_alike`, `Owner.run_alike`, `StartPeriod.setValue_alike`: each edit does the same
   in both spellings.
3. `escape_character_is_configuration`: so do all runs of edits.
-/

namespace DockerfileSyntax

open Grammar DockerfileSyntax.Parser

/-! ## Edits in two spellings -/

/-- An edit does to a value and another one to its other spelling the same: they leave the same
behind, and both succeed or both fail. -/
structure EditAlike {σ τ : Type} (f : σ → τ) (edit : Edit σ Unit) (edit' : Edit τ Unit) (s : σ) :
    Prop where
  result : (Edit.apply edit' (f s)).result = f (Edit.apply edit s).result
  error : (Edit.apply edit' (f s)).error.isSome = (Edit.apply edit s).error.isSome

section

variable {σ τ α β : Type} {f : σ → τ} {edit : Edit σ Unit} {edit' : Edit τ Unit} {s : σ}

theorem editAlike_of_ok {a : σ} (h : Edit.apply edit s = ⟨a, none⟩)
    (h' : Edit.apply edit' (f s) = ⟨f a, none⟩) : EditAlike f edit edit' s :=
  ⟨by rw [h, h'], by rw [h, h']⟩

theorem editAlike_of_error {x y : Error} (h : Edit.apply edit s = ⟨s, some x⟩)
    (h' : Edit.apply edit' (f s) = ⟨f s, some y⟩) : EditAlike f edit edit' s :=
  ⟨by rw [h, h'], by rw [h, h']; rfl⟩

/-- What an edit leaves that stores what it has computed, if it could compute it. -/
def storing (s : σ) (store : α → σ) : Except Error α → Progress Error σ
  | .ok a => ⟨store a, none⟩
  | .error error => ⟨s, some error⟩

theorem editAlike_of_storing {g : α → β} {x : Except Error α} {x' : Except Error β}
    {store : α → σ} {store' : β → τ} (stored : Edit.apply edit s = storing s store x)
    (stored' : Edit.apply edit' (f s) = storing (f s) store' x')
    (h : EndAlike g x x') (same : ∀ a, store' (g a) = f (store a)) :
    EditAlike f edit edit' s := by
  cases h with
  | ok a =>
    rw [storing, same] at stored'
    exact editAlike_of_ok stored stored'
  | error x y => exact editAlike_of_error stored stored'

/-- An edit of a part that is the same in both spellings is one of the whole. -/
theorem EditAlike.within {ρ υ : Type} {g : ρ → υ} {part : ρ} {edit : Edit ρ Unit}
    {edit' : Edit υ Unit} (h : EditAlike g edit edit' part) {store : ρ → σ} {store' : υ → τ}
    (same : ∀ a, store' (g a) = f (store a)) :
    EditAlike f (Edit.within part store edit) (Edit.within (g part) store' edit') s := by
  constructor
  · rw [Edit.apply_within, Edit.apply_within, h.result, same]
  · rw [Edit.apply_within, Edit.apply_within, h.error]

/-- Edits that do what others do. -/
theorem EditAlike.of_apply {other : Edit σ Unit} {other' : Edit τ Unit}
    (h : EditAlike f other other' s) (first : Edit.apply edit s = Edit.apply other s)
    (second : Edit.apply edit' (f s) = Edit.apply other' (f s)) : EditAlike f edit edit' s :=
  ⟨by rw [first, second, h.result], by rw [first, second, h.error]⟩

/-- What an edit makes of a value that is stored nowhere. -/
theorem EditAlike.edited (h : EditAlike f edit edit' s) :
    EndAlike f (Edit.edited edit s) (Edit.edited edit' (f s)) := by
  obtain ⟨result, error⟩ := h
  unfold Edit.edited Progress.toExcept
  rw [result]
  cases hx : (Edit.apply edit s).error with
  | none =>
    rw [hx, Option.isSome_none, Option.isSome_eq_false_iff, Option.isNone_iff_eq_none] at error
    rw [error]
    exact .ok _
  | some x =>
    rw [hx] at error
    obtain ⟨y, hy⟩ := Option.isSome_iff_exists.mp error
    rw [hy]
    exact .error x y

end

/-! ## Reading values -/

theorem swapEscapes_isEmpty (t : Text) : t.swapEscapes.isEmpty = t.isEmpty := by
  cases t <;> rfl

theorem quoteFor_swapEscapes (value : Text) : quoteFor value.swapEscapes = quoteFor value := by
  have blank : ∀ c, isBlank (swapEscape c) = isBlank c := by
    intro c
    by_cases hc : IsEscape c
    · rcases hc with rfl | rfl <;> decide
    · rw [show swapEscape c = c from swapped.char_eq hc]
  rw [quoteFor, quoteFor, Text.swapEscapes, List.any_map]
  congr 2
  exact congrArg (List.any value) (funext blank)

theorem requireNonEmpty_alike (field : EditField) (value : Text) :
    EndAlike id (requireNonEmpty field value) (requireNonEmpty field value.swapEscapes) := by
  cases value with
  | nil => exact .error _ _
  | cons c value => exact .ok ()

/-- Reading all of a text ends alike in both spellings. -/
theorem complete_alike {α β : Type} {f : α → β} {p : Parser α} {p' : Parser β}
    (h : swapped.Carries f p p') (t : Text) :
    EndAlike f (complete p t) (complete p' t.swapEscapes) := by
  have out := h.complete (swapped_admits t)
  rw [swapped_text] at out
  generalize complete p t = x, complete p' t.swapEscapes = y at out
  cases out with
  | ok a => exact .ok a
  | error same => exact .error _ _

theorem readAs_alike {α β : Type} {f : α → β} {p : Parser α} {p' : Parser β}
    (h : swapped.Carries f p p') (cause cause' : Failure → Error) (t : Text) :
    EndAlike f (readAs cause p t) (readAs cause' p' t.swapEscapes) := by
  have out := complete_alike h t
  unfold readAs
  generalize complete p t = x, complete p' t.swapEscapes = y at out
  cases out with
  | ok a => exact .ok a
  | error x y => exact .error _ _

namespace Literal

theorem apply_setContent_storing (field : EditField) (e : Char) (excluded : List Char)
    (allowEmpty : Bool) (value : Text) (l : Literal) :
    Edit.apply (setContent field e excluded allowEmpty value) l =
      storing l (Literal.mk (l.quoteWith value))
        (readContent field e excluded allowEmpty (l.quoteWith value) value) := by
  rw [apply_setContent]
  cases readContent field e excluded allowEmpty (l.quoteWith value) value <;> rfl

theorem quoteWith_swapped (l : Literal) (value : Text) :
    (swapped.literal l).quoteWith value.swapEscapes = l.quoteWith value := by
  rw [quoteWith, quoteWith, quoteFor_swapEscapes]
  rfl

section

variable {e : Char} (he : IsEscape e) {excluded : List Char}
  (hx : ∀ c ∈ excluded, ¬ IsEscape c) (field : EditField) (allowEmpty : Bool) (value : Text)

include he hx

theorem readContent_alike (quote : Option Quote) :
    EndAlike (swapped.tokens false) (readContent field e excluded allowEmpty quote value)
      (readContent field (swapEscape e) excluded allowEmpty quote value.swapEscapes) := by
  unfold readContent
  rw [swapEscapes_isEmpty]
  split
  · split
    · exact .error _ _
    · exact .ok []
  · exact readAs_alike (carries_literalContent he .ends hx quote) _ _ value

theorem setContent_alike (l : Literal) :
    EditAlike swapped.literal (setContent field e excluded allowEmpty value)
      (setContent field (swapEscape e) excluded allowEmpty value.swapEscapes) l := by
  have same := apply_setContent_storing field (swapEscape e) excluded allowEmpty value.swapEscapes
    (swapped.literal l)
  rw [quoteWith_swapped] at same
  exact editAlike_of_storing (apply_setContent_storing field e excluded allowEmpty value l) same
    (readContent_alike he hx field allowEmpty value (l.quoteWith value)) fun _ => rfl

end

end Literal

/-! ## Declarations -/

/-- The keyword that a name becomes. -/
def Keyword.named (name : Text) : Except Error Keyword := do
  requireNonEmpty .instructionName name
  requireNonEmpty .keyword name.toUpperCase
  match name.toUpperCase.find? fun c => !isKeywordChar c with
  | some char => .error (.invalid .keyword (.notInKeyword char))
  | none => .ok (.new name.toUpperCase)

theorem Keyword.named_of_mem {name : Text} {c : Char} (mem : c ∈ name) (isEscape : IsEscape c) :
    ∃ error, named name = .error error := by
  have upper : c ∈ name.toUpperCase := by
    refine List.mem_flatMap.mpr ⟨c, mem, ?_⟩
    rcases isEscape with rfl | rfl <;> decide
  have refused : (name.toUpperCase.find? fun c => !isKeywordChar c).isSome = true := by
    refine List.find?_isSome.mpr ⟨c, upper, ?_⟩
    rcases isEscape with rfl | rfl <;> decide
  obtain ⟨char, found⟩ := Option.isSome_iff_exists.mp refused
  unfold named
  rcases requireNonEmpty_cases .instructionName name with ⟨-, passed⟩ | failed
  · rcases requireNonEmpty_cases .keyword name.toUpperCase with ⟨-, passed'⟩ | failed
    · exact ⟨.invalid .keyword (.notInKeyword char), by rw [passed, passed', found]; rfl⟩
    · exact ⟨.invalid .keyword .empty, by rw [passed, failed]; rfl⟩
  · exact ⟨.invalid .instructionName .empty, by rw [failed]; rfl⟩

theorem Keyword.named_eq_ok {name : Text} {k : Keyword} (h : named name = .ok k) :
    swapped.keyword k = k := by
  unfold named at h
  rcases requireNonEmpty_cases .instructionName name with ⟨-, passed⟩ | failed
  · rcases requireNonEmpty_cases .keyword name.toUpperCase with ⟨-, passed'⟩ | failed
    · rw [passed, passed'] at h
      cases found : name.toUpperCase.find? fun c => !isKeywordChar c with
      | some char =>
        rw [found] at h
        cases h
      | none =>
        rw [found] at h
        cases h
        have plain : name.toUpperCase.map swapped.char = name.toUpperCase := by
          refine Respelling.map_char_eq fun c hc isEscape => ?_
          have isKeyword := List.find?_eq_none.mp found c hc
          rcases isEscape with rfl | rfl <;> exact absurd (by decide) isKeyword
        simp [Respelling.keyword, Keyword.new, Respelling.tokens, plain]
    · rw [passed, failed] at h
      cases h
  · rw [failed] at h
    cases h

/-- A name that holds an escape character is refused, and any other one is the same in both
spellings. -/
theorem Keyword.named_alike (name : Text) :
    EndAlike swapped.keyword (named name) (named name.swapEscapes) := by
  by_cases h : ∃ c ∈ name, IsEscape c
  · obtain ⟨c, mem, isEscape⟩ := h
    obtain ⟨x, hx⟩ := named_of_mem mem isEscape
    have mem' : swapEscape c ∈ name.swapEscapes := List.mem_map_of_mem mem
    obtain ⟨y, hy⟩ := named_of_mem mem' (swapped.isEscape_char isEscape)
    rw [hx, hy]
    exact .error x y
  · have same : name.swapEscapes = name :=
      Respelling.map_char_eq (T := swapped) fun c mem isEscape => h ⟨c, mem, isEscape⟩
    rw [same]
    cases hk : named name with
    | error x => exact .error x x
    | ok k =>
      have fixed : EndAlike swapped.keyword (.ok k : Except Error Keyword)
          (.ok (swapped.keyword k) : Except Error Keyword) := .ok k
      rwa [named_eq_ok hk] at fixed

namespace Arg

theorem apply_setInstructionName (name : Text) (a : Arg) :
    Edit.apply (setInstructionName name) a =
      storing a (fun keyword => { a with heading := { a.heading with keyword } })
        (Keyword.named name) := by
  have outer := Edit.apply_within a.heading (fun heading => { a with heading })
    (Heading.setName name) a
  have inner : Edit.apply (Heading.setName name) a.heading =
      storing a.heading (fun keyword => { a.heading with keyword }) (Keyword.named name) := by
    rw [Heading.setName, Edit.apply, Edit.check_bind, Keyword.named]
    rcases requireNonEmpty_cases .instructionName name with ⟨-, passed⟩ | failed
    · rw [passed]
      refine (Edit.apply_within a.heading.keyword (fun keyword => { a.heading with keyword })
        (Keyword.setText name.toUpperCase) a.heading).trans ?_
      rw [Keyword.setText, Edit.apply, Edit.check_bind]
      rcases requireNonEmpty_cases .keyword name.toUpperCase with ⟨-, passed'⟩ | failed'
      · rw [passed']
        cases name.toUpperCase.find? fun c => !isKeywordChar c <;> rfl
      · rw [failed']
        rfl
    · rw [failed]
      rfl
  refine outer.trans ?_
  rw [inner]
  cases Keyword.named name <;> rfl

theorem setInstructionName_alike (name : Text) (a : Arg) :
    EditAlike swapped.arg (setInstructionName name) (setInstructionName name.swapEscapes) a :=
  editAlike_of_storing (apply_setInstructionName name a)
    (apply_setInstructionName name.swapEscapes (swapped.arg a)) (Keyword.named_alike name)
    fun _ => rfl

/-- The parts of a name that is read, unless it is in quotes. -/
def nameParts (e : Char) (name : Text) : Except Error (List Token) := do
  requireNonEmpty .argName name
  let found ←
    readAs (fun failure => .invalid .argName (.malformed failure)) (Grammar.argName e) name
  if found.quote.isSome then .error (.invalid .argName (.quotedName name)) else .ok found.children

theorem apply_setArgName (name : Text) (a : Arg) :
    Edit.apply (setArgName name) a =
      storing a (fun children => { a with name := { a.name with children } })
        (nameParts a.escape name) := by
  rw [setArgName, Edit.apply, Edit.check_bind, nameParts]
  rcases requireNonEmpty_cases .argName name with ⟨-, passed⟩ | failed
  · rw [passed, Edit.get_bind, Edit.check_bind]
    dsimp only
    cases readAs (fun failure => .invalid .argName (.malformed failure))
      (Grammar.argName a.escape) name with
    | error error => rfl
    | ok found =>
      obtain ⟨quote, children⟩ := found
      cases quote <;> rfl
  · rw [failed]
    rfl

variable {e : Char} {a : Arg}

theorem nameParts_alike (he : IsEscape e) (name : Text) :
    EndAlike (swapped.tokens false) (nameParts e name)
      (nameParts (swapEscape e) name.swapEscapes) := by
  refine (requireNonEmpty_alike .argName name).bind fun _ =>
    (readAs_alike (carries_argName he) _ _ name).bind fun found => ?_
  obtain ⟨quote, children⟩ := found
  cases quote with
  | none => exact .ok children
  | some quote => exact .error _ _

theorem setArgName_alike (he : IsEscape a.escape) (name : Text) :
    EditAlike swapped.arg (setArgName name) (setArgName name.swapEscapes) a :=
  editAlike_of_storing (apply_setArgName name a) (apply_setArgName name.swapEscapes (swapped.arg a))
    (nameParts_alike he name) fun _ => rfl

theorem apply_setArgValue_storing (value : Text) (a : Arg) :
    Edit.apply (setArgValue (some value)) a =
      storing a
        (fun children => { a with value := some ⟨(a.value.getD .empty).quoteWith value, children⟩ })
        (Literal.readContent .argValue a.escape [] true ((a.value.getD .empty).quoteWith value)
          value) := by
  rw [apply_setArgValue]
  cases Literal.readContent .argValue a.escape [] true ((a.value.getD .empty).quoteWith value)
    value <;> rfl

theorem setArgValue_alike (he : IsEscape a.escape) (value : Option Text) :
    EditAlike swapped.arg (setArgValue value) (setArgValue (value.map Text.swapEscapes)) a := by
  cases value with
  | none => exact editAlike_of_ok rfl rfl
  | some value =>
    have quote : ((swapped.arg a).value.getD .empty).quoteWith value.swapEscapes =
        (a.value.getD .empty).quoteWith value := by
      rw [← Literal.quoteWith_swapped (a.value.getD .empty)]
      show ((a.value.map swapped.literal).getD .empty).quoteWith _ = _
      cases a.value <;> rfl
    have same := apply_setArgValue_storing value.swapEscapes (swapped.arg a)
    rw [quote] at same
    exact editAlike_of_storing (apply_setArgValue_storing value a) same
      (Literal.readContent_alike he (by simp) .argValue true value _) fun _ => rfl

theorem apply_resolve_storing {env : Environment} {l : Literal} (hv : a.value = some l)
    (name : a.name.resolve env = .ok a.name) :
    Edit.apply (resolve env) a =
      storing a (fun l => { a with value := some l }) ((l.resolve env).mapError .unset) := by
  rw [apply_resolve name, hv]
  dsimp only
  cases l.resolve env <;> rfl

theorem resolve_alike (h : a.Normal e) (h' : (swapped.arg a).Formed (swapEscape e))
    (env : Environment) : EditAlike swapped.arg (resolve env) (resolve env.swapEscapes) a := by
  have name := h.formed.name.resolve_eq env
  have name' := h'.name.resolve_eq env.swapEscapes
  cases hv : a.value with
  | none =>
    have hv' : (swapped.arg a).value = none := congrArg (Option.map swapped.literal) hv
    refine editAlike_of_ok (a := a) ?_ ?_
    · rw [apply_resolve name, hv]
    · rw [apply_resolve name', hv']
  | some l =>
    have hv' : (swapped.arg a).value = some (swapped.literal l) :=
      congrArg (Option.map swapped.literal) hv
    exact editAlike_of_storing (apply_resolve_storing hv name) (apply_resolve_storing hv' name')
      ((Literal.resolve_alike (h.value l hv)).mapError _ _) fun _ => rfl

/-- The edit with the escape characters in its arguments and in the values of variables swapped. -/
def Change.swapEscapes : Change → Change
  | .name text => .name text.swapEscapes
  | .value text => .value (text.map Text.swapEscapes)
  | .instructionName text => .instructionName text.swapEscapes
  | .resolve env => .resolve env.swapEscapes

theorem Normal.run_alike (h : a.Normal e) (he : IsEscape e)
    (h' : (swapped.arg a).Normal (swapEscape e)) (change : Change) :
    EditAlike swapped.arg change.run change.swapEscapes.run a := by
  have here : IsEscape a.escape := h.formed.escape ▸ he
  cases change with
  | name text => exact setArgName_alike here text
  | value text => exact setArgValue_alike here text
  | instructionName text => exact setInstructionName_alike text a
  | resolve env => exact resolve_alike h h'.formed env

end Arg

/-! ## Owners -/

namespace Owner

/-- An edit of a part by text. -/
inductive TextEdit where
  | user (text : Text)
  | group (text : Option Text)

/-- What the edit does. -/
def TextEdit.run : TextEdit → Edit Owner Unit
  | .user text => setUser text
  | .group text => setGroup text

/-- The edit with the escape characters in its text swapped. -/
def TextEdit.swapEscapes : TextEdit → TextEdit
  | .user text => .user text.swapEscapes
  | .group text => .group (text.map Text.swapEscapes)

theorem not_isEscape_colon : ∀ c ∈ [':'], ¬ IsEscape c :=
  Respelling.not_isEscape_of_isMark rfl

variable {o : Owner}

theorem checkPart_alike (he : IsEscape o.escape) (field : EditField) (part : Literal) :
    EndAlike id (o.checkPart field part)
      ((swapped.owner o).checkPart field (swapped.literal part)) := by
  have nonempty : (swapped.literal part).children ≠ [] ↔ part.children ≠ [] := by
    simp [Respelling.literal, Respelling.tokens_eq_map]
  have read := complete_alike (carries_ownerPart he) part.render
  rw [← render_swapped_literal] at read
  refine .of_unit ?_
  rw [checkPart_eq_ok, checkPart_eq_ok, nonempty]
  exact and_congr_right fun _ => read.exists_ok_iff

theorem literal?_swapped (role : Role) (o : Owner) :
    role.literal? (swapped.owner o) = (role.literal? o).map swapped.literal := by
  cases role with
  | user => rfl
  | group => obtain ⟨user, breaks, _ | ⟨after, group⟩, escape⟩ := o <;> rfl

theorem withLiteral_swapped (role : Role) (o : Owner) (part : Literal) :
    role.withLiteral (swapped.owner o) (swapped.literal part) =
      swapped.owner (role.withLiteral o part) := by
  cases role with
  | user => rfl
  | group => obtain ⟨user, breaks, _ | ⟨after, group⟩, escape⟩ := o <;> rfl

/-- The edit with the escape characters in its value swapped. -/
def PartEdit.swapEscapes (edit : PartEdit) : PartEdit :=
  ⟨edit.role, edit.value.swapEscapes,
    fun isGroup => mt List.map_eq_nil_iff.mp (edit.keepsGroup isGroup)⟩

theorem set_alike_of_some (he : IsEscape o.escape) (edit : PartEdit) {part : Literal}
    (has : edit.role.literal? o = some part) :
    EditAlike swapped.owner edit.run edit.swapEscapes.run o := by
  have has' : edit.role.literal? (swapped.owner o) = some (swapped.literal part) := by
    rw [literal?_swapped, has]
    rfl
  have setting :=
    Literal.setContent_alike he not_isEscape_colon edit.role.field false edit.value part
  exact (setting.within (withLiteral_swapped edit.role o)).of_apply
    (apply_set_of_some edit has) (apply_set_of_some edit.swapEscapes has')

/-- The literal of a new group. -/
def newGroup (o : Owner) (value : Text) : Except Error Literal := do
  let group ← Edit.edited (Literal.setContent .group o.escape [':'] false value) .empty
  o.checkPart .group group
  return group

theorem apply_setGroup_of_none (hasNot : o.groupLiteral = none) {value : Text} (h : value ≠ []) :
    Edit.apply (setGroup (some value)) o = storing o o.withGroup (o.newGroup value) := by
  have unfolded : Edit.apply (setGroup (some value)) o = Edit.apply (do
      let group ← Edit.edited (Literal.setContent .group o.escape [':'] false value) .empty
      setGroupLiteral (some group)) o :=
    apply_set_of_none ⟨.group, value, fun _ => h⟩ hasNot
  rw [unfolded, Edit.apply, Edit.check_bind, newGroup]
  cases Edit.edited (Literal.setContent .group o.escape [':'] false value) .empty with
  | error error => rfl
  | ok group =>
    dsimp only
    rw [setGroupLiteral, Edit.get_bind, Edit.check_bind]
    show _ = storing o o.withGroup (o.checkPart .group group >>= fun _ => pure group)
    cases o.checkPart .group group <;> rfl

theorem newGroup_alike (he : IsEscape o.escape) (value : Text) :
    EndAlike swapped.literal (o.newGroup value)
      ((swapped.owner o).newGroup value.swapEscapes) := by
  have setting := Literal.setContent_alike he not_isEscape_colon .group false
    value .empty
  exact setting.edited.bind fun group => (checkPart_alike he .group group).bind fun _ => .ok group

theorem setGroup_alike (he : IsEscape o.escape) (value : Option Text) :
    EditAlike swapped.owner (setGroup value) (setGroup (value.map Text.swapEscapes)) o := by
  rcases value with _ | _ | ⟨c, value⟩
  · exact editAlike_of_ok rfl rfl
  · exact editAlike_of_ok rfl rfl
  · have nonempty : c :: value ≠ [] := List.cons_ne_nil c value
    cases has : o.groupLiteral with
    | none =>
      have hasNot : (swapped.owner o).groupLiteral = none :=
        (literal?_swapped .group o).trans (congrArg (Option.map swapped.literal) has)
      exact editAlike_of_storing (apply_setGroup_of_none has nonempty)
        (apply_setGroup_of_none hasNot (List.cons_ne_nil _ _)) (newGroup_alike he (c :: value))
        (withLiteral_swapped .group o)
    | some group => exact set_alike_of_some he ⟨.group, c :: value, fun _ => nonempty⟩ has

theorem run_alike (he : IsEscape o.escape) (edit : TextEdit) :
    EditAlike swapped.owner edit.run edit.swapEscapes.run o := by
  cases edit with
  | user text => exact set_alike_of_some he ⟨.user, text, nofun⟩ rfl
  | group text => exact setGroup_alike he text

theorem Formed.after_textEdit {e : Char} (h : o.Formed e) (edit : TextEdit) :
    (Edit.apply edit.run o).result.Formed e := by
  cases edit with
  | user text => exact h.after_setting (.user text)
  | group text => exact h.after_setting (.group text)

end Owner

/-! ## Start periods -/

namespace StartPeriod

theorem literal_ofValue_swapped (value : Text) :
    swapped.literal (.ofValue value) = .ofValue value.swapEscapes := by
  have children : swapped.tokens false (mergeStrings [.string value]) =
      mergeStrings [.string value.swapEscapes] := by
    rw [Respelling.tokens_mergeStrings, Respelling.tokens, Respelling.token_string]
    rfl
  rw [Literal.ofValue, Literal.ofValue, quoteFor_swapEscapes, Literal.new, Literal.new, ← children]
  rfl

variable {p : StartPeriod}

theorem apply_setValue_of_none (hasNot : p.assigned = none) (value : Text) :
    Edit.apply (KeyValue.setValue (some value)) p =
      storing p (fun part => { p with assigned := some (.equals, part) })
        (Edit.edited (Literal.setContent .value p.escape [] false value) (.ofValue value)) := by
  obtain ⟨isFlag, keyToken, assigned, escape⟩ := p
  cases hasNot
  have unfolded : KeyValue.setValue (some value) (⟨isFlag, keyToken, none, escape⟩ : StartPeriod) =
      ((Edit.edited (Literal.setContent .value escape [] false value) (.ofValue value) :
          Edit StartPeriod Literal) >>= fun part =>
        set (⟨isFlag, keyToken, some (.equals, part), escape⟩ : StartPeriod))
      ⟨isFlag, keyToken, none, escape⟩ := rfl
  rw [Edit.apply, unfolded, Edit.check_bind]
  cases Edit.edited (Literal.setContent .value escape [] false value) (.ofValue value) <;> rfl

theorem setValue_alike (he : IsEscape p.escape) (value : Option Text) :
    EditAlike swapped.pair (KeyValue.setValue value)
      (KeyValue.setValue (value.map Text.swapEscapes)) p := by
  cases value with
  | none => exact editAlike_of_ok rfl rfl
  | some value =>
    have setting :=
      Literal.setContent_alike he (by simp : ∀ c ∈ [], ¬ IsEscape c) .value false value
    cases has : p.assigned with
    | none =>
      have hasNot : (swapped.pair p).assigned = none :=
        congrArg (Option.map (Prod.map swapped.separator swapped.literal)) has
      have added := (setting (.ofValue value)).edited
      rw [literal_ofValue_swapped] at added
      exact editAlike_of_storing (apply_setValue_of_none has value)
        (apply_setValue_of_none hasNot value.swapEscapes) added fun _ => rfl
    | some pair =>
      obtain ⟨isFlag, keyToken, assigned, escape⟩ := p
      cases has
      have within : EditAlike swapped.pair
          (Edit.within pair.2
            (fun part => (⟨isFlag, keyToken, some (pair.1, part), escape⟩ : StartPeriod))
            (Literal.setContent .value escape [] false value))
          (Edit.within (swapped.literal pair.2)
            (fun part => (⟨isFlag, swapped.keyword keyToken, some (swapped.separator pair.1, part),
              swapEscape escape⟩ : StartPeriod))
            (Literal.setContent .value (swapEscape escape) [] false value.swapEscapes))
          ⟨isFlag, keyToken, some pair, escape⟩ :=
        (setting pair.2).within fun _ => rfl
      exact ⟨within.result, within.error⟩

end StartPeriod

/-! ## Runs of edits -/

/-- Any edits of the first value and the same edits of the second one, the escape characters in
their arguments swapped, leave trees that differ by this swap, and each edit after them succeeds for
both or fails for both. -/
structure StaySwapped {σ γ : Type} (tokens : σ → List Token) (run : γ → Edit σ Unit)
    (swap : γ → γ) (s s' : σ) : Prop where
  trees (edits : List γ) : tokens (Edit.afterAll ((edits.map swap).map run) s') =
    Token.mapTextAll Text.swapEscapes (tokens (Edit.afterAll (edits.map run) s))
  outcome (edits : List γ) (edit : γ) :
    (Edit.apply (run (swap edit)) (Edit.afterAll ((edits.map swap).map run) s')).error.isSome =
      (Edit.apply (run edit) (Edit.afterAll (edits.map run) s)).error.isSome

/-- Values stay swapped if one step leaves them related in such a way that their trees are swapped
and that the next step does the same for both. -/
theorem staySwapped_of_step {σ γ : Type} {tokens : σ → List Token} {run : γ → Edit σ Unit}
    {swap : γ → γ} {f : σ → σ} (Kept : σ → Prop)
    (trees : ∀ s, tokens (f s) = Token.mapTextAll Text.swapEscapes (tokens s))
    (alike : ∀ c s, Kept s → EditAlike f (run c) (run (swap c)) s)
    (kept : ∀ c s, Kept s → Kept (Edit.apply (run c) s).result) {s : σ} (h : Kept s) :
    StaySwapped tokens run swap s (f s) := by
  have related : ∀ edits : List γ,
      Edit.afterAll ((edits.map swap).map run) (f s) = f (Edit.afterAll (edits.map run) s) ∧
        Kept (Edit.afterAll (edits.map run) s) := by
    intro edits
    induction edits generalizing s with
    | nil => exact ⟨rfl, h⟩
    | cons c edits ih =>
      have next := ih (kept c s h)
      rwa [← (alike c s h).result] at next
  constructor
  · intro edits
    rw [(related edits).1, trees]
  · intro edits edit
    rw [(related edits).1]
    exact (alike edit _ (related edits).2).error

/-- The escape character is configuration and nothing else: a text where the backslash escapes and
the text with backslashes and backticks swapped where the backtick does are both read, into trees
that differ by this swap, or both refused at the same place, and edits do the same to both. -/
theorem escape_character_is_configuration (t : Text) :
    Alike (StaySwapped Arg.tokens Arg.Change.run Arg.Change.swapEscapes)
        (Arg.parse '\\' t) (Arg.parse '`' t.swapEscapes) ∧
      Alike (StaySwapped Owner.tokens Owner.TextEdit.run Owner.TextEdit.swapEscapes)
        (Owner.parse '\\' t) (Owner.parse '`' t.swapEscapes) ∧
      Alike (StaySwapped KeyValue.tokens KeyValue.setValue (Option.map Text.swapEscapes))
        (StartPeriod.parse '\\' t) (StartPeriod.parse '`' t.swapEscapes) := by
  have arg := swapped.alike_arg (.inl rfl) (swapped_admits t)
  have owner := swapped.alike_owner (.inl rfl) (swapped_admits t)
  have flag := swapped.alike_startPeriod (.inl rfl) (swapped_admits t)
  rw [swapped_text] at arg owner flag
  refine ⟨arg.attach.mono ?_, owner.attach.mono ?_, flag.attach.mono ?_⟩
  · rintro a _ ⟨rfl, read, read'⟩
    refine staySwapped_of_step (fun a => a.Normal '\\' ∧ (swapped.arg a).Normal '`')
      (fun a => ?_) (fun c a h => h.1.run_alike (.inl rfl) h.2 c) (fun c a h => ?_)
      ⟨Arg.normal_of_parse read, Arg.normal_of_parse read'⟩
    · rw [← swapped.tokens_arg, swapped_tokens]
    · have same := (h.1.run_alike (.inl rfl) h.2 c).result
      exact ⟨h.1.after c, same ▸ h.2.after c.swapEscapes⟩
  · rintro o _ ⟨rfl, read, -⟩
    have escape : ∀ o : Owner, o.Formed '\\' → IsEscape o.escape := fun o h => .inl h.escape
    refine staySwapped_of_step (Owner.Formed '\\') (fun o => ?_)
      (fun c o h => Owner.run_alike (escape o h) c) (fun c o h => h.after_textEdit c)
      (Owner.wellFormed_of_parse read).formed
    rw [← swapped.tokens_owner, swapped_tokens]
  · rintro p _ ⟨rfl, read, -⟩
    have escape : ∀ p : StartPeriod, p.WellFormed '\\' → IsEscape p.escape :=
      fun p h => .inl h.escape
    refine staySwapped_of_step (StartPeriod.WellFormed '\\') (fun p => ?_)
      (fun c p h => StartPeriod.setValue_alike (escape p h) c) (fun c p h => h.after_setValue c)
      (StartPeriod.wellFormed_of_parse read)
    rw [← swapped.tokens_pair, swapped_tokens]

/-- Where the backslash escapes, an argument with the value ``\`y`` takes the value `\$z` and
refuses `z\`, where nothing is left to escape. Where the backtick does, it has the value `` `\y ``,
takes `` `$z `` and refuses ``z` ``. -/
theorem escape_character_is_configuration_sample :
    ∃ a a', Arg.parse '\\' "ARG x=\\`y".toList = .ok a ∧
      Arg.parse '`' "ARG x=`\\y".toList = .ok a' ∧
      StaySwapped Arg.tokens Arg.Change.run Arg.Change.swapEscapes a a' ∧
      (Edit.apply (Arg.setArgValue (some ['\\', '$', 'z'])) a).result.render =
        "ARG x=\\$z".toList ∧
      (Edit.apply (Arg.setArgValue (some ['`', '$', 'z'])) a').result.render =
        "ARG x=`$z".toList ∧
      (Edit.apply (Arg.setArgValue (some ['z', '\\'])) a).error.isSome = true ∧
      (Edit.apply (Arg.setArgValue (some ['z', '`'])) a').error.isSome = true := by
  have facts : (Arg.parse '\\' "ARG x=\\`y".toList).toOption.map (fun a =>
      ((Edit.apply (Arg.setArgValue (some ['\\', '$', 'z'])) a).result.render,
        (Edit.apply (Arg.setArgValue (some ['z', '\\'])) a).error.isSome)) =
      some ("ARG x=\\$z".toList, true) := by
    decide +kernel
  obtain ⟨a, read, facts⟩ := exists_of_computed facts
  obtain ⟨text, refused⟩ := Prod.mk.inj facts
  -- what happens where the backtick escapes follows from what happens where the backslash does
  obtain ⟨alike, -⟩ := escape_character_is_configuration "ARG x=\\`y".toList
  obtain ⟨a', read', stay⟩ := alike.exists_ok read
  have trees := congrArg Token.renderAll (stay.trees [.value (some ['\\', '$', 'z'])])
  rw [renderAll_mapTextAll] at trees
  have text' := trees.trans (congrArg Text.swapEscapes text)
  have refused' := (stay.outcome [] (.value (some ['z', '\\']))).trans refused
  exact ⟨a, a', read, read', stay, text, text', refused, refused'⟩

end DockerfileSyntax
