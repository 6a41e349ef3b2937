import DockerfileSyntax.Proofs.Arg.Obtained
import DockerfileSyntax.Proofs.Arg.Shape
import DockerfileSyntax.Proofs.NormalForm

/-!
# Trees whose references have been expanded

Expansion puts text in the place of references, and text is never expanded again. So trees that have
been expanded stay as they are, whatever the variables are afterwards. This is true of all trees,
also of those that no grammar reads.

References may be left all the same, in single quotes and wherever no literal or identifier holds
them. What is read has none of the latter kind.

1. `inert_of_resolve`, `inert_of_resolveAll`: what expansion leaves is left by any other expansion.
2. `referenceFree_resolve_iff`: no reference is left outside single quotes if and only if all that
   stood there were in literals and identifiers (`Token.Placed`).
3. `IsRead.placed`: in whatever is read, they do.
4. `resolveAll_settles`: all of this, for lists of trees.
-/

namespace DockerfileSyntax

open Grammar DockerfileSyntax.Parser Token

/-! ## Trees outside single quotes -/

namespace Token

mutual

/-- A tree and all trees below it, each before its parts, except for those in single quotes. -/
def exposed : Token → List Token
  | .leaf kind text => [.leaf kind text]
  | .node kind children =>
    .node kind children ::
      if kind.wordQuote? = some (some .single) then [] else exposedAll children

/-- The trees of a list and all trees below them, except for those in single quotes. -/
def exposedAll : List Token → List Token
  | [] => []
  | token :: tokens => exposed token ++ exposedAll tokens

end

/-- No reference stands in the tree, except in single quotes. -/
def ReferenceFree (t : Token) : Prop := ∀ s ∈ t.exposed, s.isReference = false

/-- The expansion of the token leaves no reference where it is a part of a literal or an identifier:
it is a reference itself, or it holds none. -/
def Expandable (t : Token) : Prop := t.isReference = true ∨ t.ReferenceFree

/-- References stand where they are expanded: outside single quotes, each is one of the parts of a
literal or an identifier, or stands in one. -/
inductive Placed : Token → Prop
  | leaf (kind : LeafKind) (text : Text) : Placed (.leaf kind text)
  | single {kind : NodeKind} {children : List Token} :
      kind.wordQuote? = some (some .single) → Placed (.node kind children)
  | word {kind : NodeKind} {quote : Option Quote} {children : List Token} :
      kind.wordQuote? = some quote → (∀ t ∈ children, t.Expandable) → Placed (.node kind children)
  | other {kind : NodeKind} {children : List Token} :
      kind.wordQuote? = none → (∀ braced, kind ≠ .reference braced) →
      (∀ t ∈ children, Placed t) → Placed (.node kind children)

variable {env : Environment} {kind : NodeKind} {quote : Option Quote} {children : List Token}

theorem forall_exposedAll_iff {ts : List Token} :
    (∀ s ∈ exposedAll ts, s.isReference = false) ↔ ∀ t ∈ ts, t.ReferenceFree := by
  induction ts with
  | nil => simp [exposedAll]
  | cons t ts ih =>
    rw [exposedAll, List.forall_mem_append, List.forall_mem_cons, ih]
    rfl

theorem isReference_node :
    isReference (.node kind children) = false ↔ ∀ braced, kind ≠ .reference braced := by
  cases kind <;> simp [isReference]

theorem referenceFree_leaf (kind : LeafKind) (text : Text) : ReferenceFree (.leaf kind text) := by
  simp [ReferenceFree, exposed, isReference]

theorem referenceFree_node :
    ReferenceFree (.node kind children) ↔ (∀ braced, kind ≠ .reference braced) ∧
      (kind.wordQuote? = some (some .single) ∨ ∀ t ∈ children, t.ReferenceFree) := by
  rw [ReferenceFree, exposed, List.forall_mem_cons, isReference_node]
  refine and_congr_right fun _ => ?_
  split
  · next single => simp [single]
  · next unquoted => rw [forall_exposedAll_iff, or_iff_right unquoted]

theorem placed_word_iff (h : kind.wordQuote? = some quote) :
    Placed (.node kind children) ↔ quote = some .single ∨ ∀ t ∈ children, t.Expandable := by
  constructor
  · rintro (_ | single | ⟨-, parts⟩ | ⟨none, -, -⟩)
    · exact .inl (Option.some.inj (h.symm.trans single))
    · exact .inr parts
    · rw [h] at none
      cases none
  · rintro (rfl | parts)
    · exact .single h
    · exact .word h parts

theorem placed_other_iff (h : kind.wordQuote? = none) :
    Placed (.node kind children) ↔
      (∀ braced, kind ≠ .reference braced) ∧ ∀ t ∈ children, t.Placed := by
  constructor
  · rintro (_ | single | ⟨isWord, -⟩ | ⟨-, plain, parts⟩)
    · rw [h] at single
      cases single
    · rw [h] at isWord
      cases isWord
    · exact ⟨plain, parts⟩
  · rintro ⟨plain, parts⟩
    exact .other h plain parts

theorem not_reference_of_word (h : kind.wordQuote? = some quote) (braced : Bool) :
    kind ≠ .reference braced := by
  rintro rfl
  cases h

mutual

/-- Where there are no references, they are all in place. -/
theorem ReferenceFree.placed : ∀ {t : Token}, t.ReferenceFree → t.Placed
  | .leaf kind text, _ => .leaf kind text
  | .node kind children, h => by
    obtain ⟨plain, below⟩ := referenceFree_node.mp h
    cases hk : kind.wordQuote? with
    | some quote =>
      refine (placed_word_iff hk).mpr (below.imp ?_ ?_)
      · intro single
        exact Option.some.inj (hk.symm.trans single)
      · intro parts t ht
        exact .inr (parts t ht)
    | none =>
      rw [hk] at below
      exact .other hk plain (placed_of_referenceFree (below.resolve_left nofun))

theorem placed_of_referenceFree : ∀ {ts : List Token}, (∀ t ∈ ts, t.ReferenceFree) →
    ∀ t ∈ ts, t.Placed
  | [], _ => by simp
  | t :: ts, h => by
    obtain ⟨first, others⟩ := List.forall_mem_cons.mp h
    exact List.forall_mem_cons.mpr ⟨first.placed, placed_of_referenceFree others⟩

end

end Token

/-! ## What expansion leaves -/

section Expansion

variable {env : Environment} {kind : NodeKind} {quote : Option Quote} {children : List Token}
  {t t' : Token} {ts ts' : List Token}

theorem resolve_word_eq_done (h : kind.wordQuote? = some quote) :
    resolve env (.node kind children) = ⟨t', none⟩ ↔
      ∃ parts, expandWithin env quote children = .ok parts ∧ t' = .node kind parts := by
  rw [resolve_word h]
  cases expandWithin env quote children with
  | ok parts => simp [eq_comm]
  | error unset => simp

theorem resolve_other_eq_done (h : kind.wordQuote? = none) :
    resolve env (.node kind children) = ⟨t', none⟩ ↔
      ∃ parts, resolveAll env children = ⟨parts, none⟩ ∧ t' = .node kind parts := by
  rw [resolve_other h]
  obtain ⟨parts, error⟩ := resolveAll env children
  simp [eq_comm, and_comm]

theorem resolveAll_cons_eq_done :
    resolveAll env (t :: ts) = ⟨ts', none⟩ ↔ ∃ first others,
      resolve env t = ⟨first, none⟩ ∧ resolveAll env ts = ⟨others, none⟩ ∧
        ts' = first :: others := by
  rw [resolveAll]
  obtain ⟨first, error⟩ := resolve env t
  obtain ⟨others, error'⟩ := resolveAll env ts
  cases error with
  | some unset => simp
  | none => simp [eq_comm, and_comm]

mutual

/-- What the expansion of a tree leaves is left by every other expansion. -/
theorem inert_of_resolve (env' : Environment) : ∀ (t : Token) {t' : Token},
    resolve env t = ⟨t', none⟩ → t'.Inert env'
  | .leaf kind text, t', h => by
    cases h
    rfl
  | .node kind children, t', h => by
    cases hk : kind.wordQuote? with
    | some quote =>
      obtain ⟨parts, expanded, rfl⟩ := (resolve_word_eq_done hk).mp h
      exact (resolve_word_eq_done hk).mpr ⟨parts, expandWithin_settled expanded env', rfl⟩
    | none =>
      obtain ⟨parts, resolved, rfl⟩ := (resolve_other_eq_done hk).mp h
      exact Token.inert_node hk (inert_of_resolveAll env' children resolved)

theorem inert_of_resolveAll (env' : Environment) : ∀ (ts : List Token) {ts' : List Token},
    resolveAll env ts = ⟨ts', none⟩ → ∀ t ∈ ts', t.Inert env'
  | [], ts', h => by
    cases h
    simp
  | t :: ts, ts', h => by
    obtain ⟨first, others, ht, hts, rfl⟩ := resolveAll_cons_eq_done.mp h
    exact List.forall_mem_cons.mpr ⟨inert_of_resolve env' t ht, inert_of_resolveAll env' ts hts⟩

end

/-! ## Where references are left -/

theorem referenceFree_expandParts_iff {parts : List Token} (h : expandParts env ts = .ok parts) :
    (∀ t ∈ parts, t.ReferenceFree) ↔ ∀ t ∈ ts, t.Expandable := by
  induction ts generalizing parts with
  | nil =>
    cases h
    simp
  | cons t ts ih =>
    obtain ⟨part, others, hp, hs, rfl⟩ := expandParts_cons_eq_ok.mp h
    rw [List.forall_mem_cons, List.forall_mem_cons, ih hs]
    refine and_congr_left fun _ => ?_
    rcases expandPart_cases hp with ⟨isReference, text, rfl⟩ | ⟨plain, rfl⟩
    · exact iff_of_true (referenceFree_leaf _ text) (.inl isReference)
    · simp [Expandable, plain]

theorem referenceFree_expandWithin_iff {parts : List Token}
    (h : expandWithin env quote children = .ok parts) :
    (quote = some .single ∨ ∀ t ∈ parts, t.ReferenceFree) ↔
      quote = some .single ∨ ∀ t ∈ children, t.Expandable := by
  rcases expandWithin_eq_ok.mp h with ⟨single, -⟩ | ⟨-, expanded, hp, rfl⟩
  · simp [single]
  · rw [forall_mem_mergeStrings fun text => referenceFree_leaf _ text,
      referenceFree_expandParts_iff hp]

mutual

/-- Expansion leaves no reference outside single quotes if and only if all that stood outside single
quotes were in place. -/
theorem referenceFree_resolve_iff : ∀ (t : Token) {t' : Token},
    resolve env t = ⟨t', none⟩ → (t'.ReferenceFree ↔ t.Placed)
  | .leaf kind text, t', h => by
    cases h
    exact iff_of_true (referenceFree_leaf kind text) (.leaf kind text)
  | .node kind children, t', h => by
    cases hk : kind.wordQuote? with
    | some quote =>
      obtain ⟨parts, expanded, rfl⟩ := (resolve_word_eq_done hk).mp h
      rw [referenceFree_node, placed_word_iff hk, ← referenceFree_expandWithin_iff expanded, hk,
        Option.some.injEq]
      exact and_iff_right (not_reference_of_word hk)
    | none =>
      obtain ⟨parts, resolved, rfl⟩ := (resolve_other_eq_done hk).mp h
      rw [referenceFree_node, placed_other_iff hk, ← referenceFree_resolveAll_iff children resolved,
        hk, or_iff_right nofun]

theorem referenceFree_resolveAll_iff : ∀ (ts : List Token) {ts' : List Token},
    resolveAll env ts = ⟨ts', none⟩ → ((∀ t ∈ ts', t.ReferenceFree) ↔ ∀ t ∈ ts, t.Placed)
  | [], ts', h => by
    cases h
    simp
  | t :: ts, ts', h => by
    obtain ⟨first, others, ht, hts, rfl⟩ := resolveAll_cons_eq_done.mp h
    rw [List.forall_mem_cons, List.forall_mem_cons, referenceFree_resolve_iff t ht,
      referenceFree_resolveAll_iff ts hts]

end

end Expansion

/-! ## What is read -/

theorem Continuation.IsBreak.referenceFree {e : Char} {k : Continuation} (h : k.IsBreak e) :
    k.toToken.ReferenceFree := by
  obtain ⟨gap, ending, -, -, rfl⟩ := h
  refine referenceFree_node.mpr ⟨by simp, .inr ?_⟩
  cases gap <;> simp [Continuation.broken, blankTokens, referenceFree_leaf]

theorem PlainTrivia.referenceFree {e : Char} {trivia : List Trivia} (h : PlainTrivia e trivia) :
    ∀ t ∈ trivia.map Trivia.toToken, t.ReferenceFree := by
  intro t ht
  obtain ⟨t, mem, rfl⟩ := List.mem_map.mp ht
  have plain := h t mem
  cases t with
  | continuation k => exact Continuation.IsBreak.referenceFree plain
  | _ => exact referenceFree_leaf _ _

theorem referenceFree_wordParts {e : Char} {ts : List Token} (h : ∀ t ∈ ts, WordPart e t) :
    ∀ t ∈ ts, t.ReferenceFree := by
  intro t ht
  cases h t ht with
  | string text => exact referenceFree_leaf _ text
  | break_ isBreak => exact isBreak.referenceFree

namespace Grammar

/-- All parts are references or hold none. -/
def AllExpandable (ts : List Token) : Prop := ∀ t ∈ ts, t.Expandable

theorem gives_unit (word : Parser (List Token)) [Regular word] (rules : ContentRules) :
    Gives (unit word rules) AllExpandable := by
  have part : Gives (unitPart word rules) Expandable := by
    refine (gives_any _).bind_optional ?_ fun r _ => gives_pure (.inl rfl)
    refine (gives_any _).bind_optional ?_ fun found _ => ?_
    · exact (gives_any _).bind fun escaped _ => gives_pure (.inr (referenceFree_leaf _ escaped))
    · exact gives_pure (.inr (referenceFree_leaf _ [found]))
  rw [unit_eq]
  refine .attempt ((gives_continuation rules.escape).many.bind fun breaks all =>
    part.bind fun found expandable => gives_pure ?_)
  refine List.forall_mem_append.mpr ⟨fun t ht => ?_, List.forall_mem_singleton.mpr expandable⟩
  obtain ⟨k, hk, rfl⟩ := List.mem_map.mp ht
  exact .inr (all k hk).referenceFree

theorem gives_content (rules : ContentRules) : Gives (content rules) AllExpandable := by
  have units := gives_unit (content (.word rules.escape)) rules
  have first : Gives (firstUnit (content (.word rules.escape)) rules) AllExpandable := by
    refine .attempt ((gives_any _).bind fun b _ => ?_)
    cases b with
    | true => exact ⟨nofun⟩
    | false => exact units
  have later : Gives (laterUnit (content (.word rules.escape)) rules) AllExpandable := by
    rw [laterUnit_eq]
    refine (gives_any _).bind fun gap _ => units.bind fun parts all => gives_pure ?_
    refine List.forall_mem_append.mpr ⟨?_, all⟩
    cases gap <;> simp [blankTokens, Expandable, referenceFree_leaf]
  rw [content_eq]
  refine first.bind fun head h => later.many.bind fun others h' => gives_pure ?_
  refine (forall_mem_mergeStrings fun text => .inr (referenceFree_leaf _ text)).mpr ?_
  exact List.forall_mem_append.mpr ⟨h, List.forall_mem_flatten.mpr h'⟩

theorem gives_inOptionalQuotes {α : Type} {P : α → Prop} {inner : Option Quote → Parser α}
    [∀ quote, Regular (inner quote)] (h : ∀ quote, Gives (inner quote) P) :
    Gives (inOptionalQuotes inner) fun found => P found.2 := by
  refine ⟨fun hr => ?_⟩
  obtain ⟨t, inside, -⟩ := run_inOptionalQuotes_sound hr
  exact (h _).holds inside

theorem gives_literal (e : Char) (spacing : Spacing) (excluded : List Char) :
    Gives (literal e spacing excluded) fun l => AllExpandable l.children := by
  have inside (quote : Option Quote) :
      Gives (literalContent e spacing excluded quote) AllExpandable := by
    cases quote with
    | none => exact gives_content _
    | some quote =>
      have none : AllExpandable [] := by simp [AllExpandable]
      exact (gives_content _).bind_optional (gives_pure none) fun _ all => gives_pure all
  exact (gives_inOptionalQuotes inside).bind fun _ all => gives_pure all

theorem gives_nameRun (rules : NameRules) (excluded : List Char) :
    Gives (nameRun rules excluded) fun ts => ∀ t ∈ ts, WordPart rules.escape t := by
  have later : Gives (laterChar rules excluded) fun ts => ∀ t ∈ ts, WordPart rules.escape t := by
    refine (gives_charBelow rules.escape _ _).firstOf_pair ?_
    exact (gives_any _).bind fun escaped _ => gives_pure (by simpa using .string escaped)
  refine .attempt ((gives_any _).bind fun head _ => later.many.bind fun tail all => gives_pure ?_)
  refine (forall_mem_mergeStrings .string).mpr (List.forall_mem_cons.mpr ⟨.string _, ?_⟩)
  exact List.forall_mem_flatten.mpr all

theorem gives_identifierAggregate (rules : NameRules) :
    Gives (identifierAggregate rules) fun i => AllExpandable i.children := by
  have inside (quote : Option Quote) : Gives (identifierContent rules quote) AllExpandable := by
    have runs : Gives (nameRun rules (excludedIn quote)) AllExpandable :=
      ⟨fun hr t ht => .inr (referenceFree_wordParts ((gives_nameRun _ _).holds hr) t ht)⟩
    have references : Gives (do let found ← reference rules.escape; return [found.toToken])
        AllExpandable :=
      (gives_any _).bind fun found _ => gives_pure (List.forall_mem_singleton.mpr (.inl rfl))
    refine (references.firstOf_pair runs).many1.bind fun parts all => gives_pure ?_
    refine (forall_mem_mergeStrings fun text => .inr (referenceFree_leaf _ text)).mpr ?_
    exact List.forall_mem_flatten.mpr all
  exact (gives_inOptionalQuotes inside).bind fun _ all => gives_pure all

theorem gives_assignment (e : Char) :
    Gives (assignment e) fun value => ∀ l, value = some l → AllExpandable l.children := by
  refine (gives_any _).bind_optional (gives_pure nofun) fun _ _ => ?_
  refine (gives_literal e .ends []).bind_optional (gives_pure ?_) fun l all => gives_pure ?_
  · intro l stored
    cases stored
    simp [AllExpandable, Literal.empty]
  · intro l stored
    cases stored
    exact all

end Grammar

/-- The lists of trees that are read: declarations, literals and identifiers with references, under
any escape character and any rules for what they are made of. -/
inductive IsRead : List Token → Prop
  | declaration {e : Char} {text : Text} {a : Arg} : Arg.parse e text = .ok a → IsRead a.tokens
  | literal {e : Char} {spacing : Spacing} {excluded : List Char} {s r : Text} {l : Literal} :
      run (literal e spacing excluded) s = some (l, r) → IsRead [l.toToken]
  | identifier {rules : NameRules} {s r : Text} {i : Identifier} :
      run (identifierAggregate rules) s = some (i, r) → IsRead [i.toToken]

theorem Arg.placed_of_parse {e : Char} {text : Text} {a : Arg} (h : Arg.parse e text = .ok a) :
    ∀ t ∈ a.tokens, t.Placed := by
  have formed := formed_of_parse h
  obtain ⟨r, r', r₂, -, -, assigned, -, -⟩ := run_arg_eq_some.mp (parse_eq_ok.mp h)
  have keyword : a.heading.keyword.toToken.ReferenceFree :=
    referenceFree_node.mpr ⟨by simp, .inr (referenceFree_wordParts formed.heading.keyword)⟩
  have name : a.name.toToken.ReferenceFree :=
    referenceFree_node.mpr ⟨by simp, .inr (referenceFree_wordParts formed.name.wordParts)⟩
  have value : ∀ t ∈ assignedTokens a.value, t.Placed := by
    cases hv : a.value with
    | none => simp [assignedTokens]
    | some l =>
      have parts := (gives_assignment e).holds assigned l hv
      simp only [assignedTokens, List.forall_mem_cons]
      exact ⟨.leaf _ _, .word rfl parts, by simp⟩
  rw [tokens_eq]
  simp only [List.forall_mem_append, List.forall_mem_cons]
  exact ⟨placed_of_referenceFree formed.heading.lead.referenceFree, keyword.placed,
    placed_of_referenceFree formed.heading.gap.referenceFree, name.placed, value,
    placed_of_referenceFree formed.trail.referenceFree⟩

/-- Whatever is read, its references stand in literals and identifiers. -/
theorem IsRead.placed {ts : List Token} (h : IsRead ts) : ∀ t ∈ ts, t.Placed := by
  cases h with
  | declaration read => exact Arg.placed_of_parse read
  | literal read =>
    exact List.forall_mem_singleton.mpr (.word rfl ((gives_literal _ _ _).holds read))
  | identifier read =>
    exact List.forall_mem_singleton.mpr (.word rfl ((gives_identifierAggregate _).holds read))

/-! ## Lists of trees -/

/-- Once the references of trees have been expanded, nothing is left to expand: any other expansion
succeeds and leaves the trees as they are, even if values hold what looks like a reference. And if
the trees were read, no reference is left among them but in single quotes. -/
theorem resolveAll_settles {env : Environment} {ts ts' : List Token}
    (h : resolveAll env ts = ⟨ts', none⟩) :
    (∀ env', resolveAll env' ts' = ⟨ts', none⟩) ∧
      (IsRead ts → ∀ s ∈ exposedAll ts', s.isReference = false) := by
  constructor
  · intro env'
    exact resolveAll_of_inert (inert_of_resolveAll env' ts h)
  · intro read
    exact forall_exposedAll_iff.mpr ((referenceFree_resolveAll_iff ts h).mpr read.placed)

/-- The variable `A` holds the text `$B`. In `ARG x=$A` this text is put in the place of `$A`, and
there it is no reference to `B`. -/
theorem resolveAll_settles_sample :
    ∃ a ts', Arg.parse '\\' "ARG x=$A".toList = .ok a ∧
      resolveAll (fun name => if name = ['A'] then some ['$', 'B'] else none) a.tokens =
        ⟨ts', none⟩ ∧
      renderAll ts' = "ARG x=$B".toList ∧ (∀ env', resolveAll env' ts' = ⟨ts', none⟩) ∧
      ∀ s ∈ exposedAll ts', s.isReference = false := by
  let env : Environment := fun name => if name = ['A'] then some ['$', 'B'] else none
  have facts : (Arg.parse '\\' "ARG x=$A".toList).toOption.map (fun a =>
      ((resolveAll env a.tokens).error, renderAll (resolveAll env a.tokens).result)) =
      some (none, "ARG x=$B".toList) := by
    decide +kernel
  obtain ⟨a, h, facts⟩ := exists_of_computed facts
  obtain ⟨done, text⟩ := Prod.mk.inj facts
  have resolved : resolveAll env a.tokens = ⟨(resolveAll env a.tokens).result, none⟩ := by
    rw [← done]
  obtain ⟨settled, noneLeft⟩ := resolveAll_settles resolved
  exact ⟨a, _, h, resolved, text, settled, noneLeft (.declaration h)⟩

end DockerfileSyntax
