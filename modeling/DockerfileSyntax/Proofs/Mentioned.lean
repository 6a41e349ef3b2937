import DockerfileSyntax.Token.Walk

/-!
# Mentioned variables

Resolution looks up variables in literals and identifiers, in the words of references at every
depth, and once more for the error that ends it. All of these lookups are for names of references
that a walk meets: two environments in which these names have the same values resolve the trees in
the same way. An environment has one value for a variable that is missing and for one that is given
without a value.
-/

namespace DockerfileSyntax

namespace Token

/-- The name of the variable that the token refers to, if it is a reference. -/
def mention? : Token → Option Text
  | .reference braced children => some (Reference.name ⟨braced, children⟩)
  | _ => none

/-- The names of the references that a walk through the trees meets, in its order. -/
def mentions (ts : List Token) : List Text :=
  (preorderAll ts).filterMap mention?

end Token

/-- The names have the same values in both environments. -/
def Environment.AgreeOn (env env' : Environment) (names : List Text) : Prop :=
  ∀ name ∈ names, env name = env' name

open Token

variable {env env' : Environment} {t : Token} {ts : List Token}

theorem Environment.agreeOn_append {names names' : List Text} :
    env.AgreeOn env' (names ++ names') ↔ env.AgreeOn env' names ∧ env.AgreeOn env' names' :=
  List.forall_mem_append

/-! ## What a tree mentions -/

namespace Token

theorem mentions_cons (t : Token) (ts : List Token) :
    mentions (t :: ts) = mentions [t] ++ mentions ts := by
  simp only [mentions, preorderAll, List.filterMap_append, List.append_nil]

theorem mentions_node (kind : NodeKind) (children : List Token) :
    mentions [.node kind children] =
      (mention? (.node kind children)).toList ++ mentions children := by
  simp only [mentions, preorderAll, preorder, List.append_nil, List.filterMap_cons]
  cases mention? (.node kind children) <;> rfl

end Token

theorem Environment.AgreeOn.of_node {kind : NodeKind} {children : List Token}
    (h : env.AgreeOn env' (mentions [.node kind children])) :
    env.AgreeOn env' (mentions children) := by
  rw [mentions_node] at h
  exact (Environment.agreeOn_append.mp h).2

theorem Environment.AgreeOn.head (h : env.AgreeOn env' (mentions (t :: ts))) :
    env.AgreeOn env' (mentions [t]) := by
  rw [mentions_cons] at h
  exact (Environment.agreeOn_append.mp h).1

theorem Environment.AgreeOn.tail (h : env.AgreeOn env' (mentions (t :: ts))) :
    env.AgreeOn env' (mentions ts) := by
  rw [mentions_cons] at h
  exact (Environment.agreeOn_append.mp h).2

/-! ## Expansion -/

/-- A reference looks up its own name alone, be it for its text or for its error. -/
theorem Reference.expansion_congr {r : Reference} (h : env r.name = env' r.name)
    (word : Except UnsetVariable Text) : r.expansion env word = r.expansion env' word := by
  unfold Reference.expansion
  rw [h]

mutual

theorem Token.expandPart_congr (t : Token) (h : env.AgreeOn env' (mentions [t])) :
    expandPart env t = expandPart env' t := by
  cases t with
  | leaf kind text => rfl
  | node kind children =>
    cases kind with
    | reference braced =>
      have word := expandWord_congr children h.of_node
      rw [mentions_node] at h
      have name := h (Reference.name ⟨braced, children⟩) (by simp [mention?])
      simp only [expandPart]
      rw [word, Reference.expansion_congr name]
    | _ => rfl

theorem Token.expandParts_congr (ts : List Token) (h : env.AgreeOn env' (mentions ts)) :
    expandParts env ts = expandParts env' ts := by
  cases ts with
  | nil => rfl
  | cons t ts =>
    rw [expandParts, expandParts, expandPart_congr t h.head, expandParts_congr ts h.tail]

theorem Token.expandWord_congr (ts : List Token) (h : env.AgreeOn env' (mentions ts)) :
    expandWord env ts = expandWord env' ts := by
  cases ts with
  | nil => rfl
  | cons t ts =>
    cases t with
    | leaf kind text => exact expandWord_congr ts h.tail
    | node kind children =>
      cases kind with
      | literal quote =>
        simp only [expandWord]
        rw [expandParts_congr children h.head.of_node]
      | _ => exact expandWord_congr ts h.tail

end

theorem Token.expandWithin_congr (h : env.AgreeOn env' (mentions ts)) (quote : Option Quote) :
    expandWithin env quote ts = expandWithin env' quote ts := by
  rw [expandWithin, expandWithin, expandParts_congr ts h]

/-! ## Resolution -/

mutual

theorem Token.resolve_congr (t : Token) (h : env.AgreeOn env' (mentions [t])) :
    resolve env t = resolve env' t := by
  cases t with
  | leaf kind text => rfl
  | node kind children =>
    have below := h.of_node
    cases kind with
    | identifier quote | literal quote => simp only [resolve, expandWithin_congr below]
    | _ => simp only [resolve, resolveAll_congr children below]

theorem Token.resolveAll_congr (ts : List Token) (h : env.AgreeOn env' (mentions ts)) :
    resolveAll env ts = resolveAll env' ts := by
  cases ts with
  | nil => rfl
  | cons t ts =>
    simp only [resolveAll, resolve_congr t h.head, resolveAll_congr ts h.tail]

end

/-- Environments that agree on the names a walk meets lead to the same tokens and the same text, or
to the same error. -/
theorem Token.resolution_eq_of_agreeOn (h : env.AgreeOn env' (mentions ts)) :
    resolveAll env ts = resolveAll env' ts ∧ resolvedText env ts = resolvedText env' ts := by
  have same := resolveAll_congr ts h
  exact ⟨same, by rw [resolvedText, resolvedText, same]⟩

/-- `${A:-$B}` is followed by `${M?no}`. Only `B` has a value, or `B` and `C`: nothing mentions `C`,
so both times `$B` stands in for `A`, and the missing `M` ends the resolution. -/
theorem Token.resolution_eq_of_agreeOn_sample :
    ∃ ts : List Token, ∃ env env' : Environment,
      renderAll ts = "${A:-$B}${M?no}".toList ∧ mentions ts = [['A'], ['B'], ['M']] ∧
      env ['C'] ≠ env' ['C'] ∧ env.AgreeOn env' (mentions ts) ∧
      resolveAll env ts = resolveAll env' ts ∧ resolvedText env ts = resolvedText env' ts ∧
      renderAll (resolveAll env' ts).result = "b${M?no}".toList ∧
      (resolveAll env' ts).error = some ⟨['M'], ['n', 'o']⟩ := by
  let ts : List Token :=
    [.literal none [.reference true
      [.string ['A'], .symbol [':', '-'], .literal none [.reference false [.string ['B']]]]],
      .literal none [.reference true
        [.string ['M'], .symbol ['?'], .literal none [.string ['n', 'o']]]]]
  let env : Environment := fun name => if name = ['B'] then some ['b'] else none
  let env' : Environment := fun name => if name = ['C'] then some ['c'] else env name
  have names : mentions ts = [['A'], ['B'], ['M']] := by decide +kernel
  have agree : env.AgreeOn env' (mentions ts) := by
    rw [names]
    simp [Environment.AgreeOn, env, env']
  obtain ⟨same, text⟩ := Token.resolution_eq_of_agreeOn agree
  exact ⟨ts, env, env', by decide +kernel, names, by decide +kernel, agree, same, text,
    by decide +kernel, by decide +kernel⟩

end DockerfileSyntax
