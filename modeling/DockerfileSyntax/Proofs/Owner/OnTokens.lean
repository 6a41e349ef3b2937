import DockerfileSyntax.Proofs.Kinds
import DockerfileSyntax.Proofs.Mirroring
import DockerfileSyntax.Proofs.Owner.Obtained

/-!
# Editing the tokens of an owner

The parts of an owner can be found among its tokens by counting literals, and its colon by searching
for it. The edits in `Owner.OnTokens` do their work in this way, on the list of tokens alone. They
need not find a user: `missing` stands for what they do then, and may be anything. On the tokens of
an owner they do what the edits of the owner do.

1. `Owner.literals_tokens`, `Owner.colonIndex_tokens`: what is found among the tokens of an owner.
2. `Owner.mirrors`, `Owner.reached_iff`: a change of the tokens does what the change of the owner
   does, and so the same states are reached.
3. `Owner.shape_of_reached`: in every state, the tokens are a user and perhaps a group around a
   colon, and no edit of them lacks the user.
-/

namespace DockerfileSyntax

open Grammar DockerfileSyntax.Parser

namespace Owner

/-! ## Edits of tokens -/

namespace OnTokens

/-- The literal that the token at a place is, with this place. -/
def located (p : Token × Nat) : Option (Literal × Nat) := p.1.literal?.map fun l => (l, p.2)

/-- The literals among the tokens, each with its place. -/
def literals (ts : List Token) : List (Literal × Nat) := ts.zipIdx.filterMap located

/-- The literal behind so many others. -/
def literalAt (n : Nat) (ts : List Token) : Option Literal := (literals ts)[n]?.map Prod.fst

/-- The place of the first colon. -/
def colonIndex (ts : List Token) : Option Nat := ts.findIdx? fun t => t = .symbol [':']

/-- The check of a new part. It depends on no other part of an owner. -/
def checkPart (escape : Char) (field : EditField) (part : Literal) : Except Error Unit :=
  Owner.checkPart ⟨part, [], none, escape⟩ field part

/-- Edits the first literal in its place. -/
def editUser (missing : Edit (List Token) Unit) (edit : Edit Literal Unit) :
    Edit (List Token) Unit := do
  let ts ← get
  match (literals ts)[0]? with
  | some (user, i) => Edit.within user (fun user => ts.set i user.toToken) edit
  | none => missing

/-- Edits the second literal in its place, if there is one. -/
def editGroup (edit : Edit Literal Unit) : Edit (List Token) Unit := do
  let ts ← get
  match (literals ts)[1]? with
  | some (group, i) => Edit.within group (fun group => ts.set i group.toToken) edit
  | none => return ()

/-- Removes the first colon and all that stands behind it. -/
def removeGroup : Edit (List Token) Unit := do
  let ts ← get
  match colonIndex ts with
  | some i => set (ts.take i)
  | none => return ()

/-- Replaces the first literal. -/
def setUserLiteral (missing : Edit (List Token) Unit) (escape : Char) (part : Literal) :
    Edit (List Token) Unit := do
  checkPart escape .user part
  editUser missing (set part)

/-- Sets the first literal. -/
def setUser (missing : Edit (List Token) Unit) (escape : Char) (text : Text) :
    Edit (List Token) Unit :=
  editUser missing (Literal.setContent .user escape [':'] false text)

/-- Replaces the second literal, adds it behind a colon at the end, or removes it. -/
def setGroupLiteral (escape : Char) : Option Literal → Edit (List Token) Unit
  | none => removeGroup
  | some part => do
    checkPart escape .group part
    let ts ← get
    match (literals ts)[1]? with
    | some (_, i) => set (ts.set i part.toToken)
    | none => set (ts ++ [.symbol [':'], part.toToken])

/-- Sets the second literal, adds it behind a colon at the end, or removes it. -/
def setGroup (escape : Char) : Option Text → Edit (List Token) Unit
  | none | some [] => removeGroup
  | some text => do
    let ts ← get
    let setting := Literal.setContent .group escape [':'] false text
    match (literals ts)[1]? with
    | some (group, i) => Edit.within group (fun group => ts.set i group.toToken) setting
    | none =>
      let part ← Edit.edited setting .empty
      setGroupLiteral escape (some part)

end OnTokens

/-- What the setting does to the tokens of an owner. -/
def Setting.onTokens (missing : Edit (List Token) Unit) (escape : Char) :
    Setting → Edit (List Token) Unit
  | .user text => OnTokens.setUser missing escape text
  | .group text => OnTokens.setGroup escape text
  | .userLiteral part => OnTokens.setUserLiteral missing escape part
  | .groupLiteral part => OnTokens.setGroupLiteral escape part

/-- What the change does to the tokens of an owner. -/
def Change.onTokens (missing : Edit (List Token) Unit) (escape : Char) :
    Change → Edit (List Token) Unit
  | .set setting => setting.onTokens missing escape
  | .editUser edit => OnTokens.editUser missing edit
  | .editGroup edit => OnTokens.editGroup edit

/-! ## What is found among the tokens -/

open OnTokens

variable {e : Char} {o : Owner}

/-- The tokens before the group, given the line continuations behind the colon. -/
def front (o : Owner) (after : List Continuation) : List Token :=
  o.user.toToken :: (o.breaks.map Continuation.toToken ++
    .symbol [':'] :: after.map Continuation.toToken)

@[simp] theorem length_front (o : Owner) (after : List Continuation) :
    (o.front after).length = o.breaks.length + 1 + after.length + 1 := by
  simp only [front, List.length_cons, List.length_append, List.length_map]
  omega

theorem tokens_of_noGroup (h : o.group = none) :
    o.tokens = o.user.toToken :: o.breaks.map Continuation.toToken := by
  rw [tokens, h, groupTokens, List.append_nil]

theorem tokens_of_group {after : List Continuation} {group : Literal}
    (h : o.group = some (after, group)) : o.tokens = o.front after ++ [group.toToken] := by
  rw [tokens, h, groupTokens, front]
  simp

/-- Nothing between the user and the group is a literal. -/
theorem not_literal_of_mem {breaks after : List Continuation} {t : Token}
    (h : t ∈ breaks.map Continuation.toToken ++
      .symbol [':'] :: after.map Continuation.toToken) : t.literal? = none := by
  simp only [List.mem_append, List.mem_cons, List.mem_map] at h
  rcases h with ⟨k, -, rfl⟩ | rfl | ⟨k, -, rfl⟩ <;> rfl

theorem located_toToken (l : Literal) (i : Nat) : located (l.toToken, i) = some (l, i) := rfl

theorem filterMap_located {ts : List Token} (none : ∀ t ∈ ts, t.literal? = none) (i : Nat) :
    (ts.zipIdx i).filterMap located = [] := by
  rw [List.filterMap_eq_nil_iff]
  rintro ⟨t, j⟩ ht
  simp [located, none t (List.fst_mem_of_mem_zipIdx ht)]

/-- The literals are the user, at the beginning, and the group, at the end. -/
theorem literals_tokens (o : Owner) :
    literals o.tokens = (o.user, 0) ::
      (o.group.map fun (after, group) => (group, (o.front after).length)).toList := by
  cases hg : o.group with
  | none =>
    have noLiteral : ∀ t ∈ o.breaks.map Continuation.toToken, t.literal? = none := by
      intro t ht
      obtain ⟨k, -, rfl⟩ := List.mem_map.mp ht
      rfl
    rw [tokens_of_noGroup hg, literals, List.zipIdx_cons,
      List.filterMap_cons_some (located_toToken _ _), filterMap_located noLiteral]
    rfl
  | some group =>
    obtain ⟨after, group⟩ := group
    have first : ((o.front after).zipIdx 0).filterMap located = [(o.user, 0)] := by
      rw [front, List.zipIdx_cons, List.filterMap_cons_some (located_toToken _ _),
        filterMap_located fun t => not_literal_of_mem]
    rw [tokens_of_group hg, literals, List.zipIdx_append, List.filterMap_append, first]
    simp [located_toToken]

/-- The only colon among the tokens stands before the group. -/
theorem colonIndex_tokens (o : Owner) :
    colonIndex o.tokens = o.group.map fun _ => o.breaks.length + 1 := by
  have before : ∀ t ∈ o.user.toToken :: o.breaks.map Continuation.toToken,
      decide (t = .symbol [':']) = false := by
    simp [Literal.toToken, Continuation.toToken]
  cases hg : o.group with
  | none =>
    rw [tokens_of_noGroup hg, colonIndex, List.findIdx?_eq_none_iff.mpr before]
    rfl
  | some group =>
    obtain ⟨after, group⟩ := group
    have found := findIdx?_append_cons (p := fun t => t = .symbol [':']) (t := .symbol [':'])
      (by simp) _ (after.map Continuation.toToken ++ [group.toToken]) before
    rw [tokens_of_group hg, front, colonIndex]
    simpa using found

theorem colon_mem_tokens : .symbol [':'] ∈ o.tokens ↔ o.group.isSome = true := by
  have found : (colonIndex o.tokens).isSome = o.tokens.any fun t => t = .symbol [':'] :=
    List.findIdx?_isSome
  rw [colonIndex_tokens, Option.isSome_map] at found
  simp [found]

/-! ## Replacing tokens -/

theorem tokens_set_user (o : Owner) (user : Literal) :
    o.tokens.set 0 user.toToken = (o.withUser user).tokens := rfl

theorem tokens_set_group {after : List Continuation} {group : Literal}
    (h : o.group = some (after, group)) (part : Literal) :
    o.tokens.set (o.front after).length part.toToken = (o.withGroup part).tokens := by
  have stored : (o.withGroup part).group = some (after, part) := by rw [withGroup, h]
  have same : (o.withGroup part).front after = o.front after := by rw [withGroup, h]; rfl
  rw [tokens_of_group h, tokens_of_group stored, same]
  simp

theorem tokens_append_group (h : o.group = none) (part : Literal) :
    o.tokens ++ [.symbol [':'], part.toToken] = (o.withGroup part).tokens := by
  have stored : (o.withGroup part).group = some ([], part) := by rw [withGroup, h]
  have same : (o.withGroup part).front [] = o.front [] := by rw [withGroup, h]; rfl
  rw [tokens_of_noGroup h, tokens_of_group stored, same]
  simp [front]

theorem tokens_take {after : List Continuation} {group : Literal}
    (h : o.group = some (after, group)) :
    o.tokens.take (o.breaks.length + 1) = o.withoutGroup.tokens := by
  rw [tokens_of_group h, tokens_of_noGroup (o := o.withoutGroup) rfl]
  simp [front, withoutGroup]

theorem withoutGroup_eq (h : o.group = none) : o.withoutGroup = o := by
  obtain ⟨user, breaks, group, escape⟩ := o
  obtain rfl : group = none := h
  rfl

/-! ## Each edit -/

theorem mirrors_editUser (missing : Edit (List Token) Unit) (edit : Edit Literal Unit) (o : Owner) :
    Edit.Mirrors tokens o (OnTokens.editUser missing edit) (editUser edit) := by
  refine .readImage <| .read ?_
  rw [literals_tokens]
  exact Edit.mirrors_within edit (tokens_set_user o)

theorem mirrors_editGroup (edit : Edit Literal Unit) (o : Owner) :
    Edit.Mirrors tokens o (OnTokens.editGroup edit) (editGroup edit) := by
  refine .readImage <| .read ?_
  rw [literals_tokens, groupLiteral]
  cases hg : o.group with
  | none => rfl
  | some group =>
    obtain ⟨after, group⟩ := group
    exact Edit.mirrors_within edit (tokens_set_group hg)

theorem mirrors_removeGroup (o : Owner) :
    Edit.Mirrors tokens o OnTokens.removeGroup (modify withoutGroup) := by
  refine .readImage ?_
  rw [colonIndex_tokens]
  cases hg : o.group with
  | none => exact Edit.mirrors_pure_modify (by rw [withoutGroup_eq hg])
  | some group =>
    obtain ⟨after, group⟩ := group
    exact Edit.mirrors_set_modify (tokens_take hg)

theorem mirrors_setUserLiteral (missing : Edit (List Token) Unit) (part : Literal) (o : Owner) :
    Edit.Mirrors tokens o (OnTokens.setUserLiteral missing o.escape part)
      (setUserLiteral part) := by
  refine .read <| .check (fun _ => .readImage ?_) (o.checkPart .user part)
  rw [literals_tokens]
  rfl

theorem mirrors_setUser (missing : Edit (List Token) Unit) (text : Text) (o : Owner) :
    Edit.Mirrors tokens o (OnTokens.setUser missing o.escape text) (setUser text) :=
  mirrors_editUser missing (Literal.setContent .user o.escape [':'] false text) o

theorem mirrors_setGroupLiteral (part : Option Literal) (o : Owner) :
    Edit.Mirrors tokens o (OnTokens.setGroupLiteral o.escape part) (setGroupLiteral part) := by
  cases part with
  | none => exact mirrors_removeGroup o
  | some part =>
    refine .read <| .check (fun _ => .readImage ?_) (o.checkPart .group part)
    rw [literals_tokens]
    cases hg : o.group with
    | none => exact Edit.mirrors_set_modify (tokens_append_group hg part)
    | some group =>
      obtain ⟨after, group⟩ := group
      exact Edit.mirrors_set_modify (tokens_set_group hg part)

theorem mirrors_setGroup (text : Option Text) (o : Owner) :
    Edit.Mirrors tokens o (OnTokens.setGroup o.escape text) (setGroup text) := by
  rcases text with _ | _ | ⟨c, text⟩
  · exact mirrors_removeGroup o
  · exact mirrors_removeGroup o
  · refine .readImage <| .read ?_
    rw [literals_tokens, groupLiteral]
    cases hg : o.group with
    | none => exact .check (fun part => mirrors_setGroupLiteral (some part) o) _
    | some group =>
      obtain ⟨after, group⟩ := group
      exact Edit.mirrors_within _ (tokens_set_group hg)

/-! ## All changes -/

/-- Every change of the tokens does what the change of the owner does, whatever is done where no
user is found. -/
theorem mirrors (missing : Edit (List Token) Unit) (change : Change) (o : Owner) :
    Edit.Mirrors tokens o (change.onTokens missing o.escape) change.run := by
  cases change with
  | set setting =>
    cases setting with
    | user text => exact mirrors_setUser missing text o
    | group text => exact mirrors_setGroup text o
    | userLiteral part => exact mirrors_setUserLiteral missing part o
    | groupLiteral part => exact mirrors_setGroupLiteral part o
  | editUser edit => exact mirrors_editUser missing edit o
  | editGroup edit => exact mirrors_editGroup edit o

theorem Formed.mirrors (h : o.Formed e) (missing : Edit (List Token) Unit) (change : Change) :
    Edit.Mirrors tokens o (change.onTokens missing e) change.run := by
  have mirrored := Owner.mirrors missing change o
  rwa [h.escape] at mirrored

/-- The lists that can be come by where `e` is the escape character and the edits work on the tokens
alone: the tokens of an owner that was read or created, changed any number of times, with success or
without. -/
inductive OnTokens.Reached (missing : Edit (List Token) Unit) (e : Char) : List Token → Prop
  | given {o : Owner} : Given e o → Reached missing e o.tokens
  | changed (change : Change) {ts : List Token} : Reached missing e ts →
      Reached missing e (Edit.apply (change.onTokens missing e) ts).result

/-- Edits of tokens lead to the tokens of the owners that can be come by. -/
theorem reached_iff {missing : Edit (List Token) Unit} {ts : List Token} :
    Reached missing e ts ↔ ∃ o, Obtained e o ∧ o.tokens = ts := by
  constructor
  · intro h
    induction h with
    | given h => exact ⟨_, .given h, rfl⟩
    | changed change _ ih =>
      obtain ⟨o, obtained, rfl⟩ := ih
      have mirrored := congrArg Progress.result (obtained.formed.mirrors missing change)
      exact ⟨_, .changed change obtained, mirrored.symm⟩
  · rintro ⟨o, h, rfl⟩
    induction h with
    | given h => exact .given h
    | @changed change o obtained ih =>
      have mirrored := congrArg Progress.result (obtained.formed.mirrors missing change)
      have step := ih.changed change
      rwa [mirrored] at step

/-! ## The shape of the tokens -/

/-- A literal and line continuations, and perhaps a colon, line continuations and one more
literal. -/
inductive HasShape (e : Char) : List Token → Prop
  | alone {user : Literal} {breaks : List Continuation} :
      (∀ k ∈ breaks, k.IsBreak e) → HasShape e (user.toToken :: breaks.map Continuation.toToken)
  | grouped {user group : Literal} {before after : List Continuation} :
      (∀ k ∈ before, k.IsBreak e) → (∀ k ∈ after, k.IsBreak e) →
      HasShape e (user.toToken :: (before.map Continuation.toToken ++
        .symbol [':'] :: (after.map Continuation.toToken ++ [group.toToken])))

theorem Formed.hasShape (h : o.Formed e) : HasShape e o.tokens := by
  cases hg : o.group with
  | none =>
    rw [tokens_of_noGroup hg]
    exact .alone h.before
  | some group =>
    obtain ⟨after, group⟩ := group
    rw [tokens_of_group hg, front, List.cons_append, List.append_assoc, List.cons_append]
    exact .grouped h.before (h.after after group hg)

theorem literalAt_zero (o : Owner) : literalAt 0 o.tokens = some o.user := by
  rw [literalAt, literals_tokens]
  rfl

theorem literalAt_one (o : Owner) : literalAt 1 o.tokens = o.groupLiteral := by
  rw [literalAt, literals_tokens, groupLiteral]
  cases o.group <;> rfl

/-- A group that is missing or empty removes the group. -/
theorem setGroup_of_empty {text : Option Text} (empty : text = none ∨ text = some []) :
    OnTokens.setGroup e text = removeGroup := by
  rcases empty with rfl | rfl <;> rfl

theorem apply_removeGroup (o : Owner) :
    Edit.apply removeGroup o.tokens = ⟨o.withoutGroup.tokens, none⟩ :=
  mirrors_removeGroup o

/-- In every state, the tokens are a user with line continuations behind it and perhaps a group
behind a colon. The first literal is there, and the second one is if and only if a colon is; it is
removed by a group that is missing or empty, which leaves the first one alone. So an edit may work
on the tokens: it does what the edit of the owner does, whatever is done where no user is found. -/
theorem shape_of_reached {missing : Edit (List Token) Unit} {ts : List Token}
    (h : Reached missing e ts) :
    HasShape e ts ∧ (literalAt 0 ts).isSome = true ∧
    ((literalAt 1 ts).isSome = true ↔ .symbol [':'] ∈ ts) ∧
    (∀ text : Option Text, text = none ∨ text = some [] →
      ∃ ts', Edit.apply (OnTokens.setGroup e text) ts = ⟨ts', none⟩ ∧
        literalAt 0 ts' = literalAt 0 ts ∧ literalAt 1 ts' = none) ∧
    ∃ o, Obtained e o ∧ o.tokens = ts ∧
      literalAt 0 ts = some o.user ∧ literalAt 1 ts = o.groupLiteral ∧
      ∀ change : Change, Edit.apply (change.onTokens missing e) ts =
        ⟨(Edit.apply change.run o).result.tokens, (Edit.apply change.run o).error⟩ := by
  obtain ⟨o, obtained, rfl⟩ := reached_iff.mp h
  have formed := obtained.formed
  refine ⟨formed.hasShape, ?_, ?_, fun text empty => ?_, o, obtained, rfl, literalAt_zero o,
    literalAt_one o, formed.mirrors missing⟩
  · rw [literalAt_zero]
    rfl
  · rw [literalAt_one, groupLiteral, Option.isSome_map, colon_mem_tokens]
  · refine ⟨o.withoutGroup.tokens, ?_, ?_, literalAt_one o.withoutGroup⟩
    · rw [setGroup_of_empty empty, apply_removeGroup]
    · rw [literalAt_zero, literalAt_zero]
      rfl

/-- `u^`, a line end and `:g` lose the group, keep the line continuation, and take the group `h`,
where `^` is the escape character. Without the group there is no colon, and the user is still
there. -/
theorem shape_of_reached_sample :
    ∃ o bare ts, parse '^' "u^\n:g".toList = .ok o ∧
      Edit.apply (OnTokens.setGroup '^' none) o.tokens = ⟨bare, none⟩ ∧
      Token.renderAll bare = "u^\n".toList ∧
      Edit.apply (OnTokens.setGroup '^' (some ['h'])) bare = ⟨ts, none⟩ ∧
      Reached (pure ()) '^' ts ∧ Token.renderAll ts = "u^\n:h".toList ∧ HasShape '^' ts ∧
      ∃ ts', Edit.apply (OnTokens.setGroup '^' none) ts = ⟨ts', none⟩ ∧
        (literalAt 0 ts').isSome = true ∧ literalAt 1 ts' = none := by
  obtain ⟨o, h⟩ := exists_of_isOk (x := parse '^' "u^\n:g".toList) (by decide +kernel)
  obtain ⟨bare, lost, left⟩ := Edit.exists_accepted (g := Token.renderAll) (b := "u^\n".toList)
    (OnTokens.setGroup '^' none) tokens h (by decide +kernel)
  obtain ⟨ts, taken, text⟩ := Edit.exists_accepted (g := Token.renderAll) (b := "u^\n:h".toList)
    (OnTokens.setGroup '^' (some ['h']))
    (fun o => (Edit.apply (OnTokens.setGroup '^' none) o.tokens).result) h (by decide +kernel)
  rw [lost] at taken
  have reached : Reached (pure ()) '^' (Edit.apply (OnTokens.setGroup '^' (some ['h']))
      (Edit.apply (OnTokens.setGroup '^' none) o.tokens).result).result :=
    .changed (.set (.group (some ['h']))) (.changed (.set (.group none)) (.given (.read h)))
  rw [lost, taken] at reached
  obtain ⟨shape, user, -, removed, -⟩ := shape_of_reached reached
  obtain ⟨ts', done, same, noGroup⟩ := removed none (.inl rfl)
  exact ⟨o, bare, ts, h, lost, left, taken, reached, text, shape, ts', done,
    by rw [same]; exact user, noGroup⟩

end Owner

end DockerfileSyntax
