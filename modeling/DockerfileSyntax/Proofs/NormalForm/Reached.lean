import DockerfileSyntax.Proofs.Arg.Obtained
import DockerfileSyntax.Proofs.Arg.Shape
import DockerfileSyntax.Proofs.NormalForm
import DockerfileSyntax.Proofs.Owner.Obtained
import DockerfileSyntax.Proofs.StartPeriod

/-!
# Normal form under edits

Trees that are read are in normal form, whatever the escape character is. Setting a part to a text
and expanding references keep them so, because each puts in the place of a part only what the
grammar of the part has read, or what joining strings has left.

1. `Arg.Normal.after`: every edit of a declaration keeps its tokens in normal form.
2. `Owner.Named.normal`: so does every text for a part of an owner.
3. `normal_form_kept`: the trees of declarations, owners and flags, and what expanding them leaves,
   are in normal form.
-/

namespace DockerfileSyntax

open Grammar DockerfileSyntax.Parser Token

variable {e : Char}

/-- A literal that takes a text takes content in normal form. -/
theorem Literal.inNormalForm_of_readContent {field : EditField} {excluded : List Char}
    {allowEmpty : Bool} {quote : Option Quote} {value : Text} {children : List Token}
    (read : readContent field e excluded allowEmpty quote value = .ok children) :
    (Literal.toToken ⟨quote, children⟩).InNormalForm e := by
  rcases (readContent_sound read).2 with ⟨-, rfl, rfl⟩ | wellFormed
  · exact inNormalForm_literal_nil e none
  · exact wellFormed.inNormalForm

/-! ## Declarations -/

namespace Arg

variable {a : Arg}

/-- The declaration has the form of one, the strings of its keyword are joined, and its value is in
normal form. -/
structure Normal (e : Char) (a : Arg) : Prop where
  formed : a.Formed e
  keyword : Merged a.heading.keyword.children
  value : ∀ l, a.value = some l → l.toToken.InNormalForm e

theorem gives_merged_beginning (e : Char) :
    Gives (beginning e) fun h => Merged h.keyword.children :=
  (gives_any _).bind fun _ _ => (gives_merged_keyword e _).bind fun _ merged =>
    (gives_any _).bind fun _ _ => gives_pure merged

theorem normal_of_parse {text : Text} (h : parse e text = .ok a) : a.Normal e := by
  obtain ⟨r, r', r₂, heading, -, value, -, -⟩ := run_arg_eq_some.mp (parse_eq_ok.mp h)
  refine ⟨formed_of_parse h, (gives_merged_beginning e).holds heading, fun l stored => ?_⟩
  rw [stored] at value
  rcases value_of_run_assignment value with rfl | wellFormed
  · exact inNormalForm_literal_nil e none
  · exact wellFormed.inNormalForm

/-- The next value is in normal form if the one before it is. -/
theorem NextValue.inNormalForm {value : Option Literal} (next : a.NextValue value)
    (h : ∀ l, a.value = some l → l.toToken.InNormalForm a.escape) :
    ∀ l, value = some l → l.toToken.InNormalForm a.escape := by
  intro l same
  cases next with
  | kept => exact h l same
  | removed => cases same
  | read read =>
    cases same
    exact Literal.inNormalForm_of_readContent read
  | resolved was resolved =>
    cases same
    exact Literal.inNormalForm_resolve (h _ was) resolved

/-- Every edit keeps a declaration normal, whether it succeeds or not. -/
theorem Normal.after (h : a.Normal e) (change : Change) :
    (Edit.apply change.run a).result.Normal e := by
  obtain rfl := h.formed.escape
  have formed := h.formed.after change
  rcases h.formed.run_cases change with ⟨error, -, refused⟩ | ⟨children, -, done⟩ |
    ⟨value, next, done⟩ | ⟨text, nonempty, done⟩
  · rw [refused]
    exact h
  · rw [done] at formed ⊢
    exact ⟨formed, h.keyword, h.value⟩
  · rw [done] at formed ⊢
    exact ⟨formed, h.keyword, next.inNormalForm h.value⟩
  · rw [done] at formed ⊢
    exact ⟨formed, merged_singleton nonempty, h.value⟩

theorem Obtained.normal (h : Obtained e a) : a.Normal e :=
  h.of_kept (P := Normal e) (fun _ _ read => normal_of_parse read) fun change _ normal =>
    normal.after change

theorem Normal.inNormalForm (h : a.Normal e) : ∀ t ∈ a.tokens, t.InNormalForm e := by
  have keyword := Keyword.inNormalForm h.keyword h.formed.heading.keyword
  have name := inNormalForm_of_isName h.formed.name
  have value : ∀ t ∈ assignedTokens a.value, t.InNormalForm e := by
    cases hv : a.value with
    | none => simp [assignedTokens]
    | some l => simp [assignedTokens, inNormalForm_leaf, h.value l hv]
  simp only [tokens_eq, List.forall_mem_append, List.forall_mem_cons]
  exact ⟨h.formed.heading.lead.inNormalForm, keyword, h.formed.heading.gap.inNormalForm, name,
    value, h.formed.trail.inNormalForm⟩

end Arg

/-! ## Owners -/

namespace Owner

variable {o : Owner}

theorem literal?_withLiteral (o : Owner) (role role' : Role) (part : Literal) :
    role'.literal? (role.withLiteral o part) =
      if role' = role then some part else role'.literal? o := by
  obtain ⟨user, breaks, _ | ⟨after, group⟩, escape⟩ := o <;> cases role <;> cases role' <;> rfl

/-- The owners that can be come by without giving literals: read or created, with parts that are set
to texts any number of times, with success or without. -/
inductive Named (e : Char) : Owner → Prop
  | given {o : Owner} : Given e o → Named e o
  | setUser (text : Text) {o : Owner} :
      Named e o → Named e (Edit.apply (Owner.setUser text) o).result
  | setGroup (text : Option Text) {o : Owner} :
      Named e o → Named e (Edit.apply (Owner.setGroup text) o).result

/-- Nothing but line continuations stands around the colon, and the literals are in normal form. -/
structure Normal (e : Char) (o : Owner) : Prop where
  formed : o.Formed e
  part : ∀ (role : Role) (l : Literal), role.literal? o = some l → l.toToken.InNormalForm e

theorem Normal.withLiteral (h : o.Normal e) (role : Role) {part : Literal}
    (normal : part.toToken.InNormalForm e) : (role.withLiteral o part).Normal e := by
  refine ⟨h.formed.withLiteral role part, fun role' l same => ?_⟩
  rw [literal?_withLiteral] at same
  split at same
  · cases same
    exact normal
  · exact h.part role' l same

theorem Normal.after_set (h : o.Normal e) (edit : PartEdit) :
    (Edit.apply edit.run o).result.Normal e := by
  rcases set_cases edit o with ⟨error, failed⟩ | ⟨part, done, wellFormed, -⟩
  · rw [failed]
    exact h
  · rw [done]
    rw [h.formed.escape] at wellFormed
    exact h.withLiteral edit.role wellFormed.inNormalForm

theorem Normal.withoutGroup (h : o.Normal e) : o.withoutGroup.Normal e := by
  refine ⟨h.formed.withoutGroup, ?_⟩
  rintro (_ | _) l same
  · exact h.part .user l same
  · cases same

theorem WellFormed.normal (h : o.WellFormed e) : o.Normal e := by
  refine ⟨h.formed, ?_⟩
  obtain ⟨user, breaks, group, escape⟩ := o
  rintro (_ | _) l same
  · cases same
    exact h.user.inNormalForm
  · rcases group with _ | ⟨after, part⟩
    · cases same
    · cases same
      exact (h.group after part rfl).2.inNormalForm

theorem Named.normal (h : Named e o) : o.Normal e := by
  induction h with
  | given h => exact h.wellFormed.normal
  | setUser text _ ih => exact ih.after_set ⟨.user, text, nofun⟩
  | setGroup text _ ih =>
    rcases text with _ | _ | ⟨c, text⟩
    · exact ih.withoutGroup
    · exact ih.withoutGroup
    · exact ih.after_set ⟨.group, c :: text, fun _ => List.cons_ne_nil c text⟩

theorem Normal.inNormalForm (h : o.Normal e) : ∀ t ∈ o.tokens, t.InNormalForm e := by
  have user := h.part .user o.user rfl
  have before := inNormalForm_breaks h.formed.before
  have group : ∀ t ∈ groupTokens o.group, t.InNormalForm e := by
    cases hg : o.group with
    | none => simp [groupTokens]
    | some group =>
      obtain ⟨after, group⟩ := group
      have isGroup := h.part .group group (by rw [Role.literal?, groupLiteral, hg]; rfl)
      have breaks := inNormalForm_breaks (h.formed.after after group hg)
      simp only [groupTokens, List.forall_mem_append, List.forall_mem_cons]
      exact ⟨⟨inNormalForm_leaf e _ _, breaks⟩, isGroup, by simp⟩
  simp only [Owner.tokens, List.forall_mem_append, List.forall_mem_cons]
  exact ⟨⟨user, before⟩, group⟩

end Owner

/-! ## Flags -/

theorem StartPeriod.WellFormed.inNormalForm {p : StartPeriod} (h : p.WellFormed e) :
    ∀ t ∈ p.tokens, t.InNormalForm e := by
  obtain ⟨s, r, read⟩ := h.key
  have key := Keyword.inNormalForm ((gives_merged_keyword e keyName).holds read)
    ((gives_keyword e keyName).holds read)
  obtain ⟨isFlag, keyToken, assigned, escape⟩ := p
  have mark : ∀ t ∈ if isFlag = true then [Token.symbol flagMark] else [], t.InNormalForm e := by
    cases isFlag <;> simp [inNormalForm_leaf]
  rcases assigned with _ | ⟨between, value⟩
  · simp only [KeyValue.tokens, List.forall_mem_append, List.forall_mem_cons]
    exact ⟨mark, key, by simp⟩
  · have isValue := (h.assigned between value rfl).2.inNormalForm
    have separator : between.toToken.InNormalForm e := by
      cases between <;> exact inNormalForm_leaf e _ _
    simp only [KeyValue.tokens, List.forall_mem_append, List.forall_mem_cons]
    exact ⟨mark, key, separator, isValue, by simp⟩

/-! ## All trees -/

/-- The trees that can be come by where `e` is the escape character: those of declarations, of
owners and of flags for the start period, each read or created and then edited by setting its parts
to texts any number of times, and what is left of them when their references are expanded. -/
inductive ReachedTrees (e : Char) : List Token → Prop
  | arg {a : Arg} : Arg.Obtained e a → ReachedTrees e a.tokens
  | owner {o : Owner} : Owner.Named e o → ReachedTrees e o.tokens
  | flag {p : StartPeriod} (values : List (Option Text)) :
      StartPeriod.Obtained e p → ReachedTrees e (p.afterAll values).tokens
  | expanded (env : Environment) {ts : List Token} :
      ReachedTrees e ts → ReachedTrees e (Token.resolveAll env ts).result

/-- All these trees are in normal form: at every depth, the strings of keywords, identifiers and
literals are joined, line continuations are an escape character, white space and a line end, and
references are a name, in braces perhaps with a modifier and a word without quotes. -/
theorem normal_form_kept {ts : List Token} (h : ReachedTrees e ts) :
    ∀ t ∈ Token.preorderAll ts, t.IsNormal e := by
  rw [forall_preorderAll_iff]
  show ∀ t ∈ ts, t.InNormalForm e
  induction h with
  | arg h => exact h.normal.inNormalForm
  | owner h => exact h.normal.inNormalForm
  | flag values h => exact (h.wellFormed.afterAll values).inNormalForm
  | expanded env _ ih => exact inNormalForm_resolveAll env e _ ih

/-- `ARG x=$A` takes the value `$A-${B:-b^` and, on the next line, `c}`, where `^` is the escape
character. Where `A` is `1` and `B` is not set, this becomes `ARG x="1-bc"`. -/
theorem normal_form_kept_sample :
    ∃ start a ts, Arg.parse '^' "ARG x=$A".toList = .ok start ∧
      Edit.apply (Arg.setArgValue (some "$A-$\x7bB:-b^\nc\x7d".toList)) start = ⟨a, none⟩ ∧
      Token.resolveAll (fun name => if name = ['A'] then some ['1'] else none) a.tokens =
        ⟨ts, none⟩ ∧
      ReachedTrees '^' ts ∧ Token.renderAll ts = "ARG x=\"1-bc\"".toList ∧
      ∀ t ∈ Token.preorderAll ts, t.IsNormal '^' := by
  let value : Text := "$A-$\x7bB:-b^\nc\x7d".toList
  let env : Environment := fun name => if name = ['A'] then some ['1'] else none
  obtain ⟨start, h⟩ := exists_of_isOk (x := Arg.parse '^' "ARG x=$A".toList) (by decide +kernel)
  obtain ⟨a, accepted, facts⟩ := Edit.exists_accepted
    (g := fun a : Arg => ((Token.resolveAll env a.tokens).error,
      Token.renderAll (Token.resolveAll env a.tokens).result))
    (b := (none, "ARG x=\"1-bc\"".toList)) (Arg.setArgValue (some value)) (fun a => a) h
    (by decide +kernel)
  obtain ⟨done, text⟩ := Prod.mk.inj facts
  have obtained : Arg.Obtained '^' _ := .edited (.value (some value)) (.read h)
  rw [Arg.Change.run, accepted] at obtained
  have reached : ReachedTrees '^' _ := .expanded env (.arg obtained)
  exact ⟨start, a, _, h, accepted, by rw [← done], reached, text, normal_form_kept reached⟩

end DockerfileSyntax
