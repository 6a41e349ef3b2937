import DockerfileSyntax.Proofs.Content.Separated
import DockerfileSyntax.Proofs.Inert
import DockerfileSyntax.Proofs.Mentioned

/-!
# Renamed references

A walk may give every reference of a tree another name, those within words included. The new text
of a literal reads as the new literal: a reference without braces takes every character that a name
can have, and so what follows it is no such character, whatever its name is. And the new literal
resolves as the old one does where each name has the value of its new name.

1. `Walk.renames_literal`: the walk renames all references and does not stop.
2. `complete_renamed`: the new text reads as the new literal.
3. `resolveAll_renamed`: the values that a resolution of the new literal looks up.
-/

namespace DockerfileSyntax

open Grammar DockerfileSyntax.Parser

/-! ## Renaming -/

/-- The visitor that gives each reference the name that a function makes of its own. -/
def renamer (r : Text → Text) : Visitor Error
  | .reference braced children =>
    let old : Reference := ⟨braced, children⟩
    let after := Edit.apply (Reference.setName (r old.name)) old
    (after.result.toToken, after.error.elim .enter .stop)
  | t => (t, .enter)

namespace Token

mutual

/-- The tree with new names in all of its references. -/
def renamed (r : Text → Text) : Token → Token
  | .leaf kind text => .leaf kind text
  | .node kind children =>
    match kind with
    | .reference braced =>
      let name := r (Reference.name ⟨braced, children⟩)
      .reference braced (Reference.renameParts name (renamedAll r children))
    | _ => .node kind (renamedAll r children)

/-- The trees with new names in all of their references. -/
def renamedAll (r : Text → Text) : List Token → List Token
  | [] => []
  | token :: tokens => renamed r token :: renamedAll r tokens

end

end Token

open Token

/-- The literal with new names in all of its references. -/
def Literal.renamed (r : Text → Text) (l : Literal) : Literal := ⟨l.quote, renamedAll r l.children⟩

/-- An error with the new name of the variable that is not set. Its message stays. -/
def UnsetVariable.renamed (r : Text → Text) (u : UnsetVariable) : UnsetVariable :=
  ⟨r u.name, u.detail⟩

/-- Names of variables become names of variables. -/
def KeepsNames (r : Text → Text) : Prop :=
  ∀ name, isVariableName name = true → isVariableName (r name) = true

variable {r : Text → Text} {rules : ContentRules} {ts : List Token}

theorem Token.renamedAll_eq_map (r : Text → Text) (ts : List Token) :
    renamedAll r ts = ts.map (renamed r) := by
  induction ts with
  | nil => rfl
  | cons t ts ih => rw [renamedAll, ih, List.map_cons]

theorem Token.renamedAll_append (r : Text → Text) (ts us : List Token) :
    renamedAll r (ts ++ us) = renamedAll r ts ++ renamedAll r us := by
  rw [renamedAll_eq_map, renamedAll_eq_map, renamedAll_eq_map, List.map_append]

theorem Token.renamedAll_ne_nil (nonempty : ts ≠ []) : renamedAll r ts ≠ [] := by
  rw [renamedAll_eq_map]
  simpa using nonempty

theorem Token.forall_mem_renamedAll {P : Token → Prop} :
    (∀ t ∈ renamedAll r ts, P t) ↔ ∀ t ∈ ts, P (t.renamed r) := by
  rw [renamedAll_eq_map, List.forall_mem_map]

/-- There is nothing to rename in a line continuation. -/
theorem Continuation.IsBreak.renamed {e : Char} {children : List Token}
    (h : (⟨children⟩ : Continuation).IsBreak e) (r : Text → Text) :
    (Token.continuation children).renamed r = .continuation children := by
  obtain ⟨gap, ending, -, -, eq⟩ := h
  cases eq
  cases gap <;> rfl

/-! ## New names -/

/-- A letter or an underscore. -/
def BeginsName (c : Char) : Prop := ('A' ≤ c ∧ c ≤ 'Z') ∨ ('a' ≤ c ∧ c ≤ 'z') ∨ c = '_'

/-- A letter or an underscore, and then letters, digits and underscores. -/
def IsPlainName (name : Text) : Prop :=
  ∃ c cs, name = c :: cs ∧ BeginsName c ∧ ∀ d ∈ cs, BeginsName d ∨ ('0' ≤ d ∧ d ≤ '9')

theorem isVariableNameStart_iff {c : Char} : isVariableNameStart c = true ↔ BeginsName c := by
  unfold isVariableNameStart Char.isAlpha Char.isUpper Char.isLower
  simp [BeginsName, Char.le_def, or_assoc]

theorem isVariableNameChar_iff {c : Char} :
    isVariableNameChar c = true ↔ BeginsName c ∨ ('0' ≤ c ∧ c ≤ '9') := by
  have digit : c.isDigit = true ↔ '0' ≤ c ∧ c ≤ '9' := by simp [Char.isDigit, Char.le_def]
  rw [← isVariableNameStart_iff, ← digit, isVariableNameChar, isVariableNameStart, Char.isAlphanum]
  simp only [Bool.or_eq_true]
  exact or_right_comm

theorem isVariableName_iff {name : Text} : isVariableName name = true ↔ IsPlainName name := by
  cases name with
  | nil => simp [isVariableName, IsPlainName]
  | cons c cs =>
    simp [isVariableName, IsPlainName, isVariableNameStart_iff, isVariableNameChar_iff]

namespace Reference

/-- A name that a variable may have is taken, and any other text is refused. -/
theorem setName_cases (name : Text) (ref : Reference) :
    (isVariableName name = true ∧ Edit.apply (setName name) ref =
        ⟨{ ref with children := renameParts name ref.children }, none⟩) ∨
      (isVariableName name = false ∧
        ∃ error, Edit.apply (setName name) ref = ⟨ref, some error⟩) := by
  unfold setName Edit.apply
  rw [Edit.check_bind]
  cases name with
  | nil => exact .inr ⟨rfl, _, rfl⟩
  | cons c name =>
    cases isName : isVariableName (c :: name) with
    | true => exact .inl ⟨rfl, rfl⟩
    | false => exact .inr ⟨rfl, _, rfl⟩

theorem name_replaceFirst {name : Text} {children children' : List Token} (braced : Bool)
    (h : renameParts.replaceFirst name children = some children') :
    Reference.name ⟨braced, children'⟩ = name := by
  induction children generalizing children' with
  | nil => cases h
  | cons t children ih =>
    cases t with
    | leaf kind text =>
      cases kind with
      | string =>
        cases h
        rfl
      | _ =>
        obtain ⟨below, found, rfl⟩ := Option.map_eq_some_iff.mp h
        exact (ih found :)
    | node kind parts =>
      obtain ⟨below, found, rfl⟩ := Option.map_eq_some_iff.mp h
      exact (ih found :)

/-- The new name is the name of the reference. -/
theorem name_renameParts (braced : Bool) (name : Text) (children : List Token) :
    Reference.name ⟨braced, renameParts name children⟩ = name := by
  unfold renameParts
  cases h : renameParts.replaceFirst name children with
  | some replaced => exact name_replaceFirst braced h
  | none => rfl

/-- Exactly the names that a variable may have are taken. What is refused changes nothing. -/
theorem setName_spec (name : Text) (ref : Reference) :
    ((Edit.apply (setName name) ref).error = none ↔ IsPlainName name) ∧
      ((Edit.apply (setName name) ref).error = none →
        (Edit.apply (setName name) ref).result.name = name) ∧
      ((Edit.apply (setName name) ref).error ≠ none →
        (Edit.apply (setName name) ref).result = ref) := by
  rw [← isVariableName_iff]
  rcases setName_cases name ref with ⟨isName, done⟩ | ⟨notName, error, refused⟩
  · rw [done]
    exact ⟨⟨fun _ => isName, fun _ => rfl⟩, fun _ => name_renameParts _ _ _, fun h => absurd rfl h⟩
  · rw [refused, notName]
    simp

end Reference

/-! ## Content with new names -/

/-- A node keeps its kind. -/
theorem Token.exists_renamed_node (r : Text → Text) (kind : NodeKind) (children : List Token) :
    ∃ children', (node kind children).renamed r = node kind children' := by
  cases kind <;> exact ⟨_, rfl⟩

@[simp] theorem isBreak_renamed (r : Text → Text) (t : Token) :
    (t.renamed r).isBreak = t.isBreak := by
  cases t with
  | leaf kind text => rfl
  | node kind children =>
    obtain ⟨children', eq⟩ := exists_renamed_node r kind children
    rw [eq]
    cases kind <;> rfl

/-- Which tokens may be neighbours is no matter of names. -/
@[simp] theorem mayPrecede_renamed (r : Text → Text) (s t : Token) :
    mayPrecede (s.renamed r) (t.renamed r) = mayPrecede s t := by
  cases t with
  | node kind children =>
    obtain ⟨children', eq⟩ := exists_renamed_node r kind children
    rw [eq, mayPrecede_of_not_string _ fun _ => Token.noConfusion,
      mayPrecede_of_not_string _ fun _ => Token.noConfusion]
  | leaf kind text =>
    cases s with
    | leaf _ _ => rfl
    | node kind' children =>
      cases kind' with
      | reference braced => cases braced <;> cases kind <;> cases text <;> rfl
      | _ => rfl

theorem Joined.renamed (h : Joined ts) (r : Text → Text) : Joined (renamedAll r ts) := by
  rw [renamedAll_eq_map]
  refine ⟨?_, fun t ht => ?_, fun t ht => ?_⟩
  · rw [List.isChain_map]
    simpa using h.neighbours
  · rw [List.head?_map] at ht
    obtain ⟨s, hs, rfl⟩ := Option.map_eq_some_iff.mp ht
    rw [isBreak_renamed]
    exact h.first s hs
  · rw [List.getLast?_map] at ht
    obtain ⟨s, hs, rfl⟩ := Option.map_eq_some_iff.mp ht
    rw [isBreak_renamed]
    exact h.last s hs

theorem Part.renamed (names : KeepsNames r) {t : Token} (h : Part rules t) :
    Part rules (t.renamed r) := by
  induction h with
  | string nonempty spells => exact .string nonempty spells
  | continuation isBreak =>
    rw [isBreak.renamed r]
    exact .continuation isBreak
  | bare isName => exact .bare (names _ isName)
  | braced isName => exact .braced (names _ isName)
  | modified m isName _ joined ih =>
    exact .modified m (names _ isName) (forall_mem_renamedAll.mpr ih) (joined.renamed r)

theorem Word.renamed (names : KeepsNames r) (h : Word rules ts) :
    Word rules (renamedAll r ts) :=
  ⟨forall_mem_renamedAll.mpr fun t ht => (h.parts t ht).renamed names, h.joined.renamed r⟩

/-! ## Literals with new names -/

variable {e : Char} {spacing : Spacing} {excluded : List Char} {l : Literal} {text : Text}

theorem Literal.WellFormed.renamed (names : KeepsNames r) (h : l.WellFormed e spacing excluded) :
    (l.renamed r).WellFormed e spacing excluded := by
  obtain ⟨quote, children⟩ := l
  cases quote with
  | some quote => exact Word.renamed names h
  | none => exact ⟨Word.renamed names h.1, renamedAll_ne_nil h.2⟩

namespace Stretch

/-- The stretch with new names in its text. -/
def renamed (r : Text → Text) (s : Stretch) : Stretch :=
  { s with text := renderAll (renamedAll r s.word), word := renamedAll r s.word }

theorem WellFormed.renamed (names : KeepsNames r) {s : Stretch} (h : s.WellFormed rules) :
    (s.renamed r).WellFormed rules :=
  ⟨h.gap, h.blank, h.breaks, rfl, h.word.renamed names, renamedAll_ne_nil h.nonempty⟩

theorem WellFormed.renamedAll_tokens {s : Stretch} (h : s.WellFormed rules) (r : Text → Text) :
    renamedAll r s.tokens = (s.renamed r).tokens := by
  have breaks : (s.breaks.map Continuation.toToken).map (Token.renamed r) =
      s.breaks.map Continuation.toToken := by
    rw [List.map_map]
    exact List.map_congr_left fun k hk => (h.breaks k hk).renamed r
  rw [tokens, renamedAll, renamedAll_append, renamedAll_eq_map r (s.breaks.map _), breaks]
  rfl

theorem renamedAll_tokensAll {stretches : List Stretch}
    (formed : ∀ s ∈ stretches, s.WellFormed rules) (r : Text → Text) :
    renamedAll r (tokensAll stretches) = tokensAll (stretches.map (renamed r)) := by
  induction stretches with
  | nil => rfl
  | cons s stretches ih =>
    obtain ⟨first, others⟩ := List.forall_mem_cons.mp formed
    rw [tokensAll_cons, renamedAll_append, first.renamedAll_tokens, ih others, List.map_cons,
      tokensAll_cons]

end Stretch

theorem Literal.Separated.renamed (names : KeepsNames r) (h : l.Separated e excluded) :
    (l.renamed r).Separated e excluded := by
  obtain ⟨quote, children⟩ := l
  cases quote with
  | some quote => exact Word.renamed names h
  | none =>
    obtain ⟨first, stretches, isWord, nonempty, formed, rfl⟩ := h
    refine ⟨renamedAll r first, stretches.map (Stretch.renamed r), isWord.renamed names,
      renamedAll_ne_nil nonempty, ?_, ?_⟩
    · rw [List.forall_mem_map]
      exact fun s hs => (formed s hs).renamed names
    · show renamedAll r (first ++ Stretch.tokensAll stretches) = _
      rw [renamedAll_append, Stretch.renamedAll_tokensAll formed]

/-- The new text of a literal reads as the new literal. -/
theorem complete_renamed (he : IsEscape e) (names : KeepsNames r)
    (read : complete (literal e spacing excluded) text = .ok l) :
    complete (literal e spacing excluded) (l.renamed r).render = .ok (l.renamed r) := by
  by_cases hs : spacing = .separates
  · subst hs
    have separated := ((complete_literal_separates_eq_ok he).mp read).2
    exact (complete_literal_separates_eq_ok he).mpr ⟨rfl, separated.renamed names⟩
  · have wellFormed := ((complete_literal_eq_ok he hs).mp read).2
    exact (complete_literal_eq_ok he hs).mpr ⟨rfl, wellFormed.renamed names⟩

/-- The token is white space, or it may be among the tokens of content. -/
def Token.IsContent (t : Token) : Prop :=
  (∃ gap, t = .whitespace gap) ∨ ∃ rules, Part rules t

theorem Word.isContent (h : Word rules ts) : ∀ t ∈ ts, t.IsContent :=
  fun t ht => .inr ⟨rules, h.parts t ht⟩

theorem Stretch.isContent {stretches : List Stretch}
    (formed : ∀ s ∈ stretches, Stretch.WellFormed rules s) :
    ∀ t ∈ Stretch.tokensAll stretches, t.IsContent := by
  intro t ht
  obtain ⟨s, hs, ht⟩ := List.mem_flatMap.mp ht
  rcases List.mem_cons.mp ht with rfl | ht
  · exact .inl ⟨_, rfl⟩
  rcases List.mem_append.mp ht with ht | ht
  · obtain ⟨k, hk, rfl⟩ := List.mem_map.mp ht
    exact .inr ⟨rules, .continuation ((formed s hs).breaks k hk)⟩
  · exact (formed s hs).word.isContent t ht

/-- The parts of a literal that was read. -/
theorem isContent_of_complete (he : IsEscape e)
    (read : complete (literal e spacing excluded) text = .ok l) :
    ∀ t ∈ l.children, t.IsContent := by
  obtain ⟨quote, children⟩ := l
  by_cases hs : spacing = .separates
  · subst hs
    have separated := ((complete_literal_separates_eq_ok he).mp read).2
    cases quote with
    | some quote => exact Word.isContent separated
    | none =>
      obtain ⟨first, stretches, isWord, -, formed, rfl⟩ := separated
      exact List.forall_mem_append.mpr ⟨isWord.isContent, Stretch.isContent formed⟩
  · obtain ⟨rules, -, parts⟩ := ((complete_literal_eq_ok he hs).mp read).2.parts
    exact fun t ht => .inr ⟨rules, parts t ht⟩

/-! ## The walk -/

namespace Walk

variable {levels : Nat}

/-- A walk through several trees is the walk through the first and then that through the others. -/
theorem run_cons {ε : Type} (visit : Visitor ε) (levels : Nat) (t : Token) (ts : List Token) :
    run visit levels (t :: ts) = (run visit levels [t]).andThen ts (run visit levels ts) := by
  have alone (w : Walk ε) : w.andThen [] ⟨[], [], none⟩ = w := by
    obtain ⟨tokens, met, error⟩ := w
    cases error <;> simp [andThen]
  cases levels <;> simp only [run, list, alone]

/-- The walk has renamed all references of the trees and was not stopped. -/
def Renames (w : Walk Error) (r : Text → Text) (ts : List Token) : Prop :=
  w.tokens = renamedAll r ts ∧ w.error = none

theorem Renames.cons {t : Token} (first : (run (renamer r) levels [t]).Renames r [t])
    (others : (run (renamer r) levels ts).Renames r ts) :
    (run (renamer r) levels (t :: ts)).Renames r (t :: ts) := by
  rw [run_cons, andThen, first.2]
  refine ⟨?_, others.2⟩
  show (run (renamer r) levels [t]).tokens ++ (run (renamer r) levels ts).tokens = _
  rw [first.1, others.1]
  rfl

theorem renames_of_forall (h : ∀ t ∈ ts, (run (renamer r) levels [t]).Renames r [t]) :
    (run (renamer r) levels ts).Renames r ts := by
  induction ts with
  | nil => cases levels <;> exact ⟨rfl, rfl⟩
  | cons t ts ih =>
    obtain ⟨first, others⟩ := List.forall_mem_cons.mp h
    exact first.cons (ih others)

theorem renames_leaf (kind : LeafKind) (text : Text) :
    (run (renamer r) levels [.leaf kind text]).Renames r [.leaf kind text] := by
  cases levels <;> exact ⟨rfl, rfl⟩

/-- The walk through a token that the visitor lets it enter. -/
theorem run_of_enter {ε : Type} {visit : Visitor ε} {t : Token} {kind : NodeKind}
    {children : List Token} (h : visit t = (.node kind children, .enter)) (levels : Nat) :
    (run visit (levels + 1) [t]).tokens = [.node kind (run visit levels children).tokens] ∧
      (run visit (levels + 1) [t]).error = (run visit levels children).error := by
  simp only [run, list, token, h, andThen]
  cases (run visit levels children).error <;> exact ⟨rfl, rfl⟩

/-- A reference whose first part is its name has its new name and its other parts renamed. -/
theorem renames_reference {braced : Bool} {name : Text} (isName : isVariableName (r name) = true)
    (behind : (run (renamer r) levels ts).Renames r ts) :
    (run (renamer r) (levels + 1) [.reference braced (.string name :: ts)]).Renames r
      [.reference braced (.string name :: ts)] := by
  have visited : renamer r (.reference braced (.string name :: ts)) =
      (.reference braced (.string (r name) :: ts), .enter) := by
    have named : Reference.name ⟨braced, .string name :: ts⟩ = name := rfl
    rcases Reference.setName_cases (r name) ⟨braced, .string name :: ts⟩ with
      ⟨-, done⟩ | ⟨notName, -⟩
    · simp only [renamer, named, done]
      rfl
    · exact absurd isName (by simp [notName])
  obtain ⟨tokens, error⟩ := run_of_enter visited levels
  have below := Renames.cons (renames_leaf .string (r name)) behind
  refine ⟨?_, error.trans below.2⟩
  rw [tokens, below.1]
  rfl

/-- Any other node stays, and its parts are renamed. -/
theorem renames_node {kind : NodeKind} (other : ∀ braced, kind ≠ .reference braced)
    (below : (run (renamer r) levels ts).Renames r ts) :
    (run (renamer r) (levels + 1) [.node kind ts]).Renames r [.node kind ts] := by
  have visited : renamer r (.node kind ts) = (.node kind ts, .enter) := by
    cases kind with
    | reference braced => exact absurd rfl (other braced)
    | _ => rfl
  have named : (Token.node kind ts).renamed r = .node kind (renamedAll r ts) := by
    cases kind with
    | reference braced => exact absurd rfl (other braced)
    | _ => rfl
  obtain ⟨tokens, error⟩ := run_of_enter visited levels
  refine ⟨?_, error.trans below.2⟩
  rw [tokens, below.1, renamedAll, named]
  rfl

theorem renames_continuation {e : Char} {k : Continuation} (h : k.IsBreak e) :
    (run (renamer r) (levels + 1) [k.toToken]).Renames r [k.toToken] := by
  obtain ⟨gap, ending, -, -, rfl⟩ := h
  refine renames_node (fun _ => NodeKind.noConfusion) (renames_of_forall ?_)
  cases gap <;> simp [Continuation.broken, blankTokens, renames_leaf]

end Walk

theorem Token.depth_le_of_mem {t : Token} (h : t ∈ ts) : t.depth ≤ depthAll ts := by
  induction ts with
  | nil => cases h
  | cons s ts ih =>
    rw [depthAll]
    rcases List.mem_cons.mp h with rfl | h
    · exact Nat.le_max_left ..
    · exact (ih h).trans (Nat.le_max_right ..)

/-- The walk enters a node if there are enough levels, and enough are left for its parts. -/
theorem Token.exists_levels {kind : NodeKind} {levels : Nat} (h : (node kind ts).depth ≤ levels) :
    ∃ below, levels = below + 1 ∧ depthAll ts ≤ below := by
  rw [depth] at h
  exact ⟨levels - 1, by omega, by omega⟩

theorem Walk.renames_of_part (names : KeepsNames r) {t : Token} (h : Part rules t) {levels : Nat}
    (enough : t.depth ≤ levels) : (run (renamer r) levels [t]).Renames r [t] := by
  -- the induction is on the well-formed token, and each node uses up one level
  induction h generalizing levels with
  | string _ _ => exact renames_leaf _ _
  | continuation isBreak =>
    obtain ⟨levels, rfl, -⟩ := exists_levels enough
    exact renames_continuation isBreak
  | bare isName | braced isName =>
    obtain ⟨levels, rfl, -⟩ := exists_levels enough
    exact renames_reference (names _ isName) (renames_of_forall (List.forall_mem_nil _))
  | @modified rules name m word isName _ _ ih =>
    obtain ⟨levels, rfl, below⟩ := exists_levels enough
    have inner : (Token.literal none word).depth ≤ levels :=
      (depth_le_of_mem (by simp)).trans below
    obtain ⟨levels, rfl, deeper⟩ := exists_levels inner
    have parts := renames_of_forall fun t ht => ih t ht ((depth_le_of_mem ht).trans deeper)
    exact renames_reference (names _ isName) <| .cons (renames_leaf _ _) <|
      renames_node (fun _ => NodeKind.noConfusion) parts

/-- With enough levels, the walk through a literal renames all of its references. -/
theorem Walk.renames_literal (names : KeepsNames r) (parts : ∀ t ∈ l.children, t.IsContent)
    {levels : Nat} (enough : l.toToken.depth ≤ levels) :
    (run (renamer r) levels [l.toToken]).Renames r [l.toToken] := by
  obtain ⟨levels, rfl, below⟩ := exists_levels enough
  refine renames_node (fun _ => NodeKind.noConfusion) (renames_of_forall fun t ht => ?_)
  rcases parts t ht with ⟨gap, rfl⟩ | ⟨rules, part⟩
  · exact renames_leaf _ _
  · exact renames_of_part names part ((depth_le_of_mem ht).trans below)

/-! ## What a literal mentions -/

theorem Token.mentions_renamedAll (h : ∀ t ∈ ts, mentions [t.renamed r] = (mentions [t]).map r) :
    mentions (renamedAll r ts) = (mentions ts).map r := by
  induction ts with
  | nil => rfl
  | cons t ts ih =>
    obtain ⟨first, others⟩ := List.forall_mem_cons.mp h
    rw [renamedAll, mentions_cons, mentions_cons t, first, ih others, List.map_append]

theorem Part.mentions_renamed {t : Token} (h : Part rules t) (r : Text → Text) :
    mentions [t.renamed r] = (mentions [t]).map r := by
  induction h with
  | string _ _ => rfl
  | @continuation rules children isBreak =>
    have nothing : mentions [.continuation children] = [] := by
      obtain ⟨gap, ending, -, -, eq⟩ := isBreak
      cases eq
      cases gap <;> rfl
    rw [isBreak.renamed r, nothing]
    rfl
  | bare _ | braced _ => rfl
  | @modified rules name m word _ _ _ ih =>
    have below := mentions_renamedAll ih
    have all (name : Text) (word : List Token) : mentions
        [.reference true [.string name, .symbol m.symbol, .literal none word]] =
          name :: mentions word := by
      rw [mentions_node, mentions_cons, mentions_cons (.symbol _), mentions_node (.literal _)]
      rfl
    show mentions [.reference true
      [.string (r name), .symbol m.symbol, .literal none (renamedAll r word)]] = _
    rw [all, all, below, List.map_cons]

theorem Literal.mentions_renamed (parts : ∀ t ∈ l.children, t.IsContent) (r : Text → Text) :
    mentions [(l.renamed r).toToken] = (mentions [l.toToken]).map r := by
  have below : mentions (renamedAll r l.children) = (mentions l.children).map r := by
    refine mentions_renamedAll fun t ht => ?_
    rcases parts t ht with ⟨gap, rfl⟩ | ⟨rules, part⟩
    · rfl
    · exact part.mentions_renamed r
  rw [Literal.toToken, Literal.toToken, mentions_node, mentions_node]
  exact below

/-! ## Resolution -/

variable {env : Environment}

/-- A reference with a new name looks up the new name, and its error has the new name. -/
theorem Reference.expansion_renamed {ref ref' : Reference} (name : ref'.name = r ref.name)
    (modifier : ref'.modifier? = ref.modifier?) (env : Environment)
    (word : Except UnsetVariable Text) :
    ref'.expansion env (word.mapError (UnsetVariable.renamed r)) =
      (ref.expansion (env ∘ r) word).mapError (UnsetVariable.renamed r) := by
  unfold Reference.expansion
  rw [name, modifier, Function.comp_apply]
  cases ref.modifier? with
  | none => rfl
  | some m =>
    dsimp only
    split
    · rfl
    · rfl
    · rfl
    · cases word <;> rfl
    · rfl
    · rfl

theorem Token.expandParts_renamedAll
    (h : ∀ t ∈ ts, expandPart env (t.renamed r) =
      (expandPart (env ∘ r) t).mapError (UnsetVariable.renamed r)) :
    expandParts env (renamedAll r ts) =
      (expandParts (env ∘ r) ts).mapError (UnsetVariable.renamed r) := by
  induction ts with
  | nil => rfl
  | cons t ts ih =>
    obtain ⟨first, others⟩ := List.forall_mem_cons.mp h
    rw [renamedAll, expandParts, expandParts, first, ih others]
    cases expandPart (env ∘ r) t with
    | error unset => rfl
    | ok part => cases expandParts (env ∘ r) ts <;> rfl

theorem Part.expandPart_renamed {t : Token} (h : Part rules t) (env : Environment) :
    expandPart env (t.renamed r) =
      (expandPart (env ∘ r) t).mapError (UnsetVariable.renamed r) := by
  induction h with
  | string _ _ => rfl
  | continuation isBreak =>
    rw [isBreak.renamed r]
    rfl
  | bare _ | braced _ => rfl
  | @modified rules name m word _ _ _ ih =>
    have below : (expandParts env (renamedAll r word)).map wordText =
        ((expandParts (env ∘ r) word).map wordText).mapError (UnsetVariable.renamed r) := by
      rw [expandParts_renamedAll ih]
      cases expandParts (env ∘ r) word <;> rfl
    let old : Reference := ⟨true, [.string name, .symbol m.symbol, .literal none word]⟩
    let new : Reference :=
      ⟨true, [.string (r name), .symbol m.symbol, .literal none (renamedAll r word)]⟩
    let text : Except UnsetVariable Text := (expandParts (env ∘ r) word).map wordText
    have name : new.name = r old.name := rfl
    have expansion := Reference.expansion_renamed name rfl env text
    show (new.expansion env ((expandParts env (renamedAll r word)).map wordText)).map Token.string =
      ((old.expansion (env ∘ r) text).map Token.string).mapError (UnsetVariable.renamed r)
    rw [below, expansion]
    cases old.expansion (env ∘ r) text <;> rfl

theorem Literal.toExcept_resolveAll (l : Literal) (env : Environment) :
    (resolveAll env [l.toToken]).toExcept = (l.resolve env).map fun l' => [l'.toToken] := by
  rw [resolveAll, l.resolve_toToken]
  cases l.resolve env <;> rfl

/-- Outside single quotes, the new literal resolves as the old one does where each name has the
value of its new name. -/
theorem Literal.resolveAll_renamed (parts : ∀ t ∈ l.children, t.IsContent)
    (notSingle : l.quote ≠ some .single) (env : Environment) :
    (resolveAll env [(l.renamed r).toToken]).toExcept =
      (resolveAll (env ∘ r) [l.toToken]).toExcept.mapError (UnsetVariable.renamed r) := by
  have expanded : expandParts env (renamedAll r l.children) =
      (expandParts (env ∘ r) l.children).mapError (UnsetVariable.renamed r) := by
    refine expandParts_renamedAll fun t ht => ?_
    rcases parts t ht with ⟨gap, rfl⟩ | ⟨rules, part⟩
    · rfl
    · exact part.expandPart_renamed env
  have within : expandWithin env l.quote (renamedAll r l.children) =
      (expandWithin (env ∘ r) l.quote l.children).mapError (UnsetVariable.renamed r) := by
    rw [expandWithin, expandWithin, if_neg notSingle, if_neg notSingle, expanded]
    cases expandParts (env ∘ r) l.children <;> rfl
  rw [toExcept_resolveAll, toExcept_resolveAll, resolve, resolve, Literal.renamed, within]
  cases expandWithin (env ∘ r) l.quote l.children <;> rfl

/-! ## Literals that were read -/

/-- A reference takes exactly the names that a variable may have. If names become names, then a walk
through a literal that was read renames all references at every depth; the text of the new literal
reads as the new literal; and outside single quotes the new literal resolves to the same tokens as
the old one does where each name has the value of its new name, or both fail with one message. -/
theorem renamed_literal_is_read_and_resolved (r : Text → Text) :
    (∀ (name : Text) (ref : Reference),
      ((Edit.apply (Reference.setName name) ref).error = none ↔ IsPlainName name) ∧
      ((Edit.apply (Reference.setName name) ref).error = none →
        (Edit.apply (Reference.setName name) ref).result.name = name) ∧
      ((Edit.apply (Reference.setName name) ref).error ≠ none →
        (Edit.apply (Reference.setName name) ref).result = ref)) ∧
    ∀ (e : Char) (spacing : Spacing) (excluded : List Char) (text : Text) (l : Literal),
      IsEscape e → KeepsNames r → complete (literal e spacing excluded) text = .ok l →
      (∀ levels, l.toToken.depth ≤ levels →
        (Walk.run (renamer r) levels [l.toToken]).tokens = [(l.renamed r).toToken] ∧
        (Walk.run (renamer r) levels [l.toToken]).error = none) ∧
      mentions [(l.renamed r).toToken] = (mentions [l.toToken]).map r ∧
      complete (literal e spacing excluded) (l.renamed r).render = .ok (l.renamed r) ∧
      (l.quote ≠ some .single → ∀ env : Environment,
        (resolveAll env [(l.renamed r).toToken]).toExcept =
          (resolveAll (env ∘ r) [l.toToken]).toExcept.mapError (UnsetVariable.renamed r)) := by
  refine ⟨Reference.setName_spec, fun e spacing excluded text l he names read => ?_⟩
  have parts := isContent_of_complete he read
  exact ⟨fun levels enough => Walk.renames_literal names parts enough,
    Literal.mentions_renamed parts r, complete_renamed he names read,
    fun notSingle env => Literal.resolveAll_renamed parts notSingle env⟩

/-- Each name gets a `1`. The text `${A:-$B} ${M?no}` is then `${A1:-$B1} ${M1?no}`. If `B1` has the
value `b` and `M1` is missing, the old literal fails where `B` has the value `b`, and both say `no`.
No reference takes the name `1`. -/
theorem renamed_literal_is_read_and_resolved_sample :
    let r : Text → Text := fun name => name ++ ['1']
    let refers (name operator : Text) (word : List Token) : Token :=
      .reference true [.string name, .symbol operator, .literal none word]
    let l : Literal := ⟨none, [refers ['A'] [':', '-'] [.reference false [.string ['B']]],
      .whitespace [' '], refers ['M'] ['?'] [.string ['n', 'o']]]⟩
    let env : Environment := fun name => if name = ['B', '1'] then some ['b'] else none
    complete (literal '\\' .separates []) "${A:-$B} ${M?no}".toList = .ok l ∧
      (l.renamed r).render = "${A1:-$B1} ${M1?no}".toList ∧
      (Walk.run (renamer r) 5 [l.toToken]).tokens = [(l.renamed r).toToken] ∧
      complete (literal '\\' .separates []) "${A1:-$B1} ${M1?no}".toList = .ok (l.renamed r) ∧
      (resolveAll env [(l.renamed r).toToken]).toExcept = .error ⟨['M', '1'], ['n', 'o']⟩ ∧
      (resolveAll (env ∘ r) [l.toToken]).toExcept = .error ⟨['M'], ['n', 'o']⟩ ∧
      (Edit.apply (Reference.setName ['1']) (.new ['A'])).result = Reference.new ['A'] := by
  intro r refers l env
  have names : KeepsNames r := by
    rintro (_ | ⟨c, cs⟩) isName
    · cases isName
    · simp_all [isVariableName, r, isVariableNameChar]
  have read : complete (literal '\\' .separates []) "${A:-$B} ${M?no}".toList = .ok l :=
    complete_eq_ok.mpr (by decide +kernel)
  have unset : (resolveAll (env ∘ r) [l.toToken]).toExcept = .error ⟨['M'], ['n', 'o']⟩ := rfl
  obtain ⟨taken, reads⟩ := renamed_literal_is_read_and_resolved r
  obtain ⟨walked, -, complete, resolved⟩ := reads '\\' .separates [] _ l (.inl rfl) names read
  have text : (l.renamed r).render = "${A1:-$B1} ${M1?no}".toList := by decide +kernel
  rw [text] at complete
  refine ⟨read, text, (walked 5 (by decide +kernel)).1, complete, ?_, unset, ?_⟩
  · rw [resolved (by decide) env, unset]
    rfl
  · exact (taken ['1'] (Reference.new ['A'])).2.2 (by decide +kernel)

end DockerfileSyntax
