import DockerfileSyntax.Token.Walk

/-!
# Walks that edit leaves

A walk that edits meets the tokens that a walk without edits meets, in the same order, if all that
it does is to rewrite leaves. Where it leaves the parts of a token alone, it meets none of them;
where it stops, it meets nothing more. An address tells one token from another that looks the same,
so that it can be said which leaves are rewritten.

1. `Token.map_snd_locatedAll`, `Token.mem_locatedAll`: the tokens of a walk with their addresses.
2. `Token.mem_unskipped`: those that are left if the parts of some tokens are left alone.
3. `Walk.run_leafEditor`: the walk meets these up to the first failure, and rewrites the leaves
   before it.
4. `Walk.edits_follow_preorder`: the same, address by address.
-/

namespace DockerfileSyntax

/-! ## Addresses -/

/-- A step on the way from the first of some trees to a token. -/
inductive Step where
  /-- to the next tree of the list -/
  | next
  /-- to the first part of the tree -/
  | into
deriving DecidableEq

/-- The way from the first of some trees to a token. -/
abbrev Address := List Step

/-- The addresses of the tokens that the token at an address is a part of, at any depth. -/
def Address.above : Address → List Address
  | [] => []
  | .next :: a => (above a).map (Step.next :: ·)
  | .into :: a => [] :: (above a).map (Step.into :: ·)

theorem Address.mem_above {a b : Address} : b ∈ above a ↔ ∃ c, a = b ++ .into :: c := by
  induction a generalizing b with
  | nil => simp [above]
  | cons step a ih =>
    cases b with
    | nil => cases step <;> simp [above]
    | cons step' b => cases step <;> cases step' <;> simp [above, ih]

namespace Token

variable {t : Token} {ts : List Token} {a : Address}

/-- The token at an address, if there is one. -/
def tokenAt? : List Token → Address → Option Token
  | [], _ => none
  | t :: _, [] => some t
  | _ :: ts, .next :: a => tokenAt? ts a
  | t :: _, .into :: a => tokenAt? t.children a

@[simp] theorem tokenAt?_nil (a : Address) : tokenAt? [] a = none := by
  cases a <;> rfl

@[simp] theorem tokenAt?_here (t : Token) (ts : List Token) : tokenAt? (t :: ts) [] = some t := rfl

@[simp] theorem tokenAt?_next (t : Token) (ts : List Token) (a : Address) :
    tokenAt? (t :: ts) (.next :: a) = tokenAt? ts a := rfl

@[simp] theorem tokenAt?_into (t : Token) (ts : List Token) (a : Address) :
    tokenAt? (t :: ts) (.into :: a) = tokenAt? t.children a := rfl

mutual

/-- What holds of no trees, and of trees if it holds of the parts of the first and of the others,
holds of the parts of each tree. -/
theorem parts_induction {P : List Token → Prop} (nil : P [])
    (cons : ∀ t ts, P t.children → P ts → P (t :: ts)) : (t : Token) → P t.children
  | .leaf _ _ => nil
  | .node _ children => list_induction nil cons children

/-- What holds of no trees, and of trees if it holds of the parts of the first and of the others,
holds of all trees. -/
theorem list_induction {P : List Token → Prop} (nil : P [])
    (cons : ∀ t ts, P t.children → P ts → P (t :: ts)) : (ts : List Token) → P ts
  | [] => nil
  | t :: ts => cons t ts (parts_induction nil cons t) (list_induction nil cons ts)

end

/-! ## The tokens of a walk -/

/-- One step more before each address. -/
def behind (step : Step) (found : List (Address × Token)) : List (Address × Token) :=
  found.map (Prod.map (step :: ·) id)

@[simp] theorem map_snd_behind (step : Step) (found : List (Address × Token)) :
    (behind step found).map Prod.snd = found.map Prod.snd := by
  rw [behind, List.map_map]
  rfl

mutual

/-- A tree and all trees below it with their addresses, each before its parts. -/
def located : Token → List (Address × Token)
  | .leaf kind text => [([], .leaf kind text)]
  | .node kind children => ([], .node kind children) :: behind .into (locatedAll children)

/-- The trees of a list and all trees below them with their addresses, each before its parts. -/
def locatedAll : List Token → List (Address × Token)
  | [] => []
  | t :: ts => located t ++ behind .next (locatedAll ts)

end

theorem locatedAll_cons (t : Token) (ts : List Token) :
    locatedAll (t :: ts) =
      ([], t) :: (behind .into (locatedAll t.children) ++ behind .next (locatedAll ts)) := by
  cases t <;> simp [locatedAll, located, children, behind]

theorem depthAll_cons (t : Token) (ts : List Token) :
    depthAll (t :: ts) = max (depthAll t.children + 1) (depthAll ts) := by
  cases t <;> simp [depthAll, depth, children]

theorem preorderAll_cons (t : Token) (ts : List Token) :
    preorderAll (t :: ts) = t :: (preorderAll t.children ++ preorderAll ts) := by
  cases t <;> simp [preorderAll, preorder, children]

/-- These are the tokens that a walk meets, in its order. -/
theorem map_snd_locatedAll (ts : List Token) : (locatedAll ts).map Prod.snd = preorderAll ts := by
  induction ts using list_induction with
  | nil => rfl
  | cons t ts parts others =>
    rw [locatedAll_cons, preorderAll_cons, ← parts, ← others]
    simp

/-- The tokens are found at their addresses, and there is no other token at an address. -/
theorem mem_locatedAll {ts : List Token} {a : Address} {t : Token} :
    (a, t) ∈ locatedAll ts ↔ tokenAt? ts a = some t := by
  induction ts using list_induction generalizing a with
  | nil => simp [locatedAll]
  | cons s ts parts others =>
    rw [locatedAll_cons]
    rcases a with _ | ⟨_ | _, a⟩ <;> simp [behind, Prod.ext_iff, ← parts, ← others, eq_comm]

/-! ## Tokens whose parts are left alone -/

/-- The tokens of a walk that leaves the parts of some tokens alone: those that are no part of such
a token at any depth. -/
def unskipped (skips : Token → Bool) (ts : List Token) : List (Address × Token) :=
  (locatedAll ts).filter fun found =>
    found.1.above.all fun b => (tokenAt? ts b).all fun s => !skips s

theorem mem_unskipped {skips : Token → Bool} :
    (a, t) ∈ unskipped skips ts ↔ tokenAt? ts a = some t ∧
      ∀ b c s, a = b ++ .into :: c → tokenAt? ts b = some s → skips s = false := by
  rw [unskipped, List.mem_filter, mem_locatedAll]
  refine and_congr_right fun _ => ?_
  simp only [List.all_eq_true, Address.mem_above, Option.all_eq_true, Bool.not_eq_true']
  exact ⟨fun h b c s eq found => h b ⟨c, eq⟩ s found, fun h b ⟨c, eq⟩ s found => h b c s eq found⟩

theorem unskipped_cons (skips : Token → Bool) (t : Token) (ts : List Token) :
    unskipped skips (t :: ts) =
      ([], t) :: (behind .into (if skips t then [] else unskipped skips t.children) ++
        behind .next (unskipped skips ts)) := by
  have into : (behind .into (locatedAll t.children)).filter (fun found =>
      found.1.above.all fun b => (tokenAt? (t :: ts) b).all fun s => !skips s) =
        behind .into (if skips t then [] else unskipped skips t.children) := by
    rw [behind, List.filter_map, unskipped]
    cases skipped : skips t <;>
      simp [Function.comp_def, Address.above, skipped, behind]
  have next : (behind .next (locatedAll ts)).filter (fun found =>
      found.1.above.all fun b => (tokenAt? (t :: ts) b).all fun s => !skips s) =
        behind .next (unskipped skips ts) := by
    rw [behind, List.filter_map, unskipped]
    simp [Function.comp_def, Address.above, behind]
  rw [unskipped, locatedAll_cons, List.filter_cons_of_pos (by simp [Address.above]),
    List.filter_append, into, next]

/-! ## Rewritten leaves -/

/-- A change to the kinds and texts of leaves. -/
abbrev LeafEdit := LeafKind → Text → LeafKind × Text

/-- The token with the change made to it, if it is a leaf. -/
def onLeaf (edit : LeafEdit) : Token → Token
  | .leaf kind text => .leaf (edit kind text).1 (edit kind text).2
  | .node kind children => .node kind children

mutual

/-- The tree with the change made to the leaves at the addresses chosen. -/
def edited (edit : LeafEdit) (chosen : Address → Bool) : Token → Token
  | .leaf kind text => if chosen [] then onLeaf edit (.leaf kind text) else .leaf kind text
  | .node kind children => .node kind (editedAll edit (fun a => chosen (.into :: a)) children)

/-- The trees with the change made to the leaves at the addresses chosen. -/
def editedAll (edit : LeafEdit) (chosen : Address → Bool) : List Token → List Token
  | [] => []
  | t :: ts => edited edit chosen t :: editedAll edit (fun a => chosen (.next :: a)) ts

end

variable {edit : LeafEdit} {chosen : Address → Bool}

theorem children_edited (t : Token) :
    (edited edit chosen t).children = editedAll edit (fun a => chosen (.into :: a)) t.children := by
  cases t with
  | leaf kind text =>
    rw [edited]
    split <;> rfl
  | node kind children => rfl

/-- The token at an address has been edited with the choice of the addresses from there on. -/
theorem tokenAt?_editedAll (ts : List Token) (a : Address) :
    tokenAt? (editedAll edit chosen ts) a =
      (tokenAt? ts a).map (edited edit fun b => chosen (a ++ b)) := by
  induction a generalizing ts chosen with
  | nil => cases ts <;> rfl
  | cons step a ih =>
    cases ts with
    | nil => simp [editedAll]
    | cons t ts =>
      cases step with
      | next => exact ih ts
      | into =>
        rw [editedAll, tokenAt?_into, tokenAt?_into, children_edited]
        exact ih t.children

/-- If no address is chosen, nothing changes. -/
theorem editedAll_of_none (none : ∀ a, chosen a = false) (ts : List Token) :
    editedAll edit chosen ts = ts := by
  induction ts using list_induction generalizing chosen with
  | nil => rfl
  | cons t ts parts others =>
    rw [editedAll, others fun a => none _]
    cases t with
    | leaf kind text => rw [edited, none, if_neg Bool.false_ne_true]
    | node kind children =>
      have unchanged : editedAll edit (fun a => chosen (.into :: a)) children = children :=
        parts fun a => none _
      rw [edited, unchanged]

end Token

/-! ## Up to the first -/

/-- The elements of a list up to the first with a property, that one included. -/
def throughFirst {α : Type} (holds : α → Bool) : List α → List α
  | [] => []
  | a :: as => a :: if holds a then [] else throughFirst holds as

section

variable {α β : Type} {holds : α → Bool}

theorem throughFirst_append (as bs : List α) :
    throughFirst holds (as ++ bs) =
      throughFirst holds as ++ if as.any holds then [] else throughFirst holds bs := by
  induction as with
  | nil => rfl
  | cons a as ih => cases h : holds a <;> simp [throughFirst, h, ih]

theorem throughFirst_map (f : β → α) (bs : List β) :
    throughFirst holds (bs.map f) = (throughFirst (holds ∘ f) bs).map f := by
  induction bs with
  | nil => rfl
  | cons b bs ih => cases h : holds (f b) <;> simp [throughFirst, h, ih]

theorem findSome?_throughFirst {f : α → Option β} (as : List α) :
    (throughFirst (fun a => (f a).isSome) as).findSome? f = as.findSome? f := by
  induction as with
  | nil => rfl
  | cons a as ih => cases h : f a <;> simp [throughFirst, h, ih]

theorem takeWhile_not_append (as bs : List α) :
    (as ++ bs).takeWhile (fun a => !holds a) =
      as.takeWhile (fun a => !holds a) ++
        if as.any holds then [] else bs.takeWhile fun a => !holds a := by
  induction as with
  | nil => rfl
  | cons a as ih => cases h : holds a <;> simp [h, ih]

end

/-! ## The walk -/

namespace Walk

open Token

section

variable {ε : Type} (skips : Token → Bool) (edit : LeafEdit) (failure : Token → Option ε)

/-- The visitor that stops with a failure where there is one, and otherwise changes leaves and
leaves alone the parts of the tokens that it skips. -/
def leafEditor : Visitor ε := fun t =>
  match failure t with
  | some error => (t, .stop error)
  | none => (t.onLeaf edit, if skips t then .skip else .enter)

/-- The walk fails at the token. -/
def failsAt (found : Address × Token) : Bool := (failure found.2).isSome

/-- The tokens that come before the first failure. -/
def beforeFailure (found : List (Address × Token)) : List (Address × Token) :=
  found.takeWhile fun p => !failsAt failure p

/-- The address of a token that comes before the first failure. -/
def chosenIn (found : List (Address × Token)) (a : Address) : Bool :=
  decide (a ∈ (beforeFailure failure found).map Prod.fst)

/-- What a walk leaves behind that comes by these tokens of some trees. -/
def outcome (found : List (Address × Token)) (ts : List Token) : Walk ε where
  tokens := editedAll edit (chosenIn failure found) ts
  met := (throughFirst (failsAt failure) found).map Prod.snd
  error := found.findSome? fun p => failure p.2

end

variable {ε : Type} {skips : Token → Bool} {edit : LeafEdit} {failure : Token → Option ε}
  {found others : List (Address × Token)} {t : Token} {ts : List Token}

/-! ### Tokens further on -/

theorem throughFirst_behind (step : Step) :
    (throughFirst (failsAt failure) (behind step found)).map Prod.snd =
      (throughFirst (failsAt failure) found).map Prod.snd := by
  rw [behind, throughFirst_map, List.map_map]
  rfl

theorem findSome?_behind (step : Step) :
    (behind step found).findSome? (fun p => failure p.2) =
      found.findSome? fun p => failure p.2 := by
  rw [behind, List.findSome?_map]
  rfl

theorem any_failsAt_behind (step : Step) :
    (behind step found).any (failsAt failure) = found.any (failsAt failure) := by
  rw [behind, List.any_map]
  rfl

theorem beforeFailure_behind (step : Step) :
    beforeFailure failure (behind step found) = behind step (beforeFailure failure found) := by
  rw [beforeFailure, behind, List.takeWhile_map]
  rfl

theorem mem_behind {step step' : Step} {a : Address} :
    step' :: a ∈ (behind step found).map Prod.fst ↔ step' = step ∧ a ∈ found.map Prod.fst := by
  simp only [behind, List.map_map, List.mem_map, Function.comp_apply, Prod.map_fst,
    List.cons.injEq]
  exact ⟨fun ⟨p, mem, eq, eq'⟩ => ⟨eq.symm, p, mem, eq'⟩,
    fun ⟨eq, p, mem, eq'⟩ => ⟨p, mem, eq.symm, eq'⟩⟩

theorem any_failsAt_of_findSome? {error : ε}
    (h : (found.findSome? fun p => failure p.2) = some error) :
    found.any (failsAt failure) = true := by
  obtain ⟨p, mem, fails⟩ := List.exists_of_findSome?_eq_some h
  exact List.any_eq_true.mpr ⟨p, mem, by rw [failsAt, fails]; rfl⟩

theorem any_failsAt_of_findSome?_none (h : (found.findSome? fun p => failure p.2) = none) :
    found.any (failsAt failure) = false := by
  rw [List.any_eq_false]
  intro p mem
  rw [failsAt, List.findSome?_eq_none_iff.mp h p mem]
  exact Bool.false_ne_true

/-- Behind a token that is no failure, the tokens among its parts come first. -/
theorem beforeFailure_cons (passes : failure t = none) :
    beforeFailure failure (([], t) :: (behind .into found ++ behind .next others)) =
      ([], t) :: (behind .into (beforeFailure failure found) ++
        if found.any (failsAt failure) then []
        else behind .next (beforeFailure failure others)) := by
  rw [← beforeFailure_behind, ← beforeFailure_behind, ← any_failsAt_behind .into, beforeFailure,
    List.takeWhile_cons_of_pos (by simp [failsAt, passes]), takeWhile_not_append]
  rfl

/-! ### One token and the whole walk -/

/-- The walk through a token that is no failure, if it comes by these tokens among its parts. -/
theorem token_leafEditor (passes : failure t = none) {parts : List Token → Walk ε}
    (nothing : skips t = true ∨ t.children = [] → found = [])
    (below : skips t = false → parts t.children = outcome edit failure found t.children)
    {chosen : Address → Bool} (here : chosen [] = true)
    (into : ∀ a, chosen (.into :: a) = chosenIn failure found a) :
    token (leafEditor skips edit failure) parts t =
      ⟨[t.edited edit chosen], t :: (throughFirst (failsAt failure) found).map Prod.snd,
        found.findSome? fun p => failure p.2⟩ := by
  have visit : leafEditor skips edit failure t =
      (t.onLeaf edit, if skips t then .skip else .enter) := by
    rw [leafEditor, passes]
  cases t with
  | leaf kind text =>
    obtain rfl := nothing (.inr rfl)
    rw [token, visit, edited, if_pos here]
    cases skips (.leaf kind text) <;> rfl
  | node kind children =>
    rw [token, visit, edited, funext into]
    cases skipped : skips (.node kind children) with
    | true =>
      obtain rfl := nothing (.inl skipped)
      have same : editedAll edit (chosenIn failure []) children = children :=
        editedAll_of_none (fun _ => rfl) children
      rw [same]
      rfl
    | false =>
      have below : parts children = outcome edit failure found children := below skipped
      show (⟨[.node kind (parts children).tokens], _ :: (parts children).met, _⟩ : Walk ε) = _
      rw [below]
      rfl

theorem chosenIn_cons_next (passes : failure t = none) (a : Address) :
    chosenIn failure (([], t) :: (behind .into found ++ behind .next others)) (.next :: a) =
      (!found.any (failsAt failure) && chosenIn failure others a) := by
  rw [chosenIn, beforeFailure_cons passes]
  cases found.any (failsAt failure) <;> simp [chosenIn, mem_behind, -List.mem_map]

theorem chosenIn_cons_into (passes : failure t = none) (a : Address) :
    chosenIn failure (([], t) :: (behind .into found ++ behind .next others)) (.into :: a) =
      chosenIn failure found a := by
  rw [chosenIn, beforeFailure_cons passes]
  cases found.any (failsAt failure) <;> simp [chosenIn, mem_behind, -List.mem_map]

/-- A walk that fails at its first token has changed nothing. -/
theorem outcome_of_failure {error : ε} (fails : failure t = some error) :
    outcome edit failure (([], t) :: found) (t :: ts) = ⟨t :: ts, [t], some error⟩ := by
  have unchanged : editedAll edit (chosenIn failure (([], t) :: found)) (t :: ts) = t :: ts := by
    refine editedAll_of_none (fun a => ?_) _
    simp [chosenIn, beforeFailure, failsAt, fails]
  simp [outcome, unchanged, throughFirst, failsAt, fails]

/-- A walk that comes by a token that is no failure, then by tokens among its parts and, if none of
these is a failure, by tokens further on. -/
theorem outcome_cons (passes : failure t = none) :
    outcome edit failure (([], t) :: (behind .into found ++ behind .next others)) (t :: ts) =
      andThen ⟨[t.edited edit
          (chosenIn failure (([], t) :: (behind .into found ++ behind .next others)))],
        t :: (throughFirst (failsAt failure) found).map Prod.snd,
        found.findSome? fun p => failure p.2⟩ ts (outcome edit failure others ts) := by
  have here : failsAt failure (([], t) : Address × Token) = false := by
    rw [failsAt, passes]
    rfl
  cases stops : found.findSome? fun p => failure p.2 with
  | some error =>
    have any := any_failsAt_of_findSome? stops
    have others_unchanged : editedAll edit (fun a => chosenIn failure
        (([], t) :: (behind .into found ++ behind .next others)) (.next :: a)) ts = ts :=
      editedAll_of_none (fun a => by rw [chosenIn_cons_next passes, any]; rfl) ts
    simp [outcome, andThen, editedAll, others_unchanged, throughFirst, here, throughFirst_append,
      any_failsAt_behind, any, throughFirst_behind, passes, List.findSome?_append,
      findSome?_behind, stops]
  | none =>
    have any := any_failsAt_of_findSome?_none stops
    have others_chosen (a : Address) : chosenIn failure
        (([], t) :: (behind .into found ++ behind .next others)) (.next :: a) =
          chosenIn failure others a := by
      rw [chosenIn_cons_next passes, any]
      rfl
    simp [outcome, andThen, editedAll, others_chosen, throughFirst, here, throughFirst_append,
      any_failsAt_behind, any, throughFirst_behind, passes, List.findSome?_append,
      findSome?_behind, stops]

/-- The walk comes by the tokens that are left if the parts of the skipped ones are left alone. -/
theorem run_leafEditor (skips : Token → Bool) (edit : LeafEdit) (failure : Token → Option ε)
    (ts : List Token) {levels : Nat} (enough : depthAll ts ≤ levels) :
    run (leafEditor skips edit failure) levels ts =
      outcome edit failure (unskipped skips ts) ts := by
  -- the walk enters the parts of the first tree with one level less, and goes on with all of them
  induction ts using list_induction generalizing levels with
  | nil => cases levels <;> rfl
  | cons t ts parts others =>
    rw [depthAll_cons] at enough
    cases levels with
    | zero => omega
    | succ levels =>
      have below := @parts levels (by omega)
      have behind := @others (levels + 1) (by omega)
      show (token _ (run (leafEditor skips edit failure) levels) t).andThen ts
        (run (leafEditor skips edit failure) (levels + 1) ts) = _
      rw [behind, unskipped_cons]
      cases fails : failure t with
      | some error =>
        rw [outcome_of_failure fails, token, leafEditor, fails]
        rfl
      | none =>
        rw [outcome_cons fails, token_leafEditor fails ?_ ?_ ?_ (chosenIn_cons_into fails)]
        · rintro (skipped | noParts)
          · rw [if_pos skipped]
          · rw [noParts]
            split <;> rfl
        · intro notSkipped
          rw [notSkipped]
          exact below
        · rw [chosenIn, beforeFailure_cons fails]
          simp

/-- What stands at an address of the trees that the walk leaves behind. -/
theorem tokenAt?_outcome (a : Address) :
    tokenAt? (outcome edit failure found ts).tokens a =
      (tokenAt? ts a).map (Token.edited edit fun b => chosenIn failure found (a ++ b)) :=
  tokenAt?_editedAll ts a

/-- A walk may fail at some tokens, leave the parts of some alone, and change leaves. Then it meets
the tokens that a walk without edits meets, in the same order, but for those that are parts at any
depth of one whose parts it leaves alone, up to the first at which it fails, that one included. It
fails if and only if it meets such a token, with the failure of that one. The trees that it leaves
behind have tokens at the same addresses: nodes of the same kinds, changed leaves where it met a
leaf before it failed, and the same leaves everywhere else. -/
theorem edits_follow_preorder (skips : Token → Bool) (edit : LeafEdit) (failure : Token → Option ε)
    (ts : List Token) :
    ((locatedAll ts).map Prod.snd = preorderAll ts ∧
      ∀ a t, (a, t) ∈ locatedAll ts ↔ tokenAt? ts a = some t) ∧
    ((unskipped skips ts).Sublist (locatedAll ts) ∧
      ∀ a t, (a, t) ∈ unskipped skips ts ↔ tokenAt? ts a = some t ∧
        ∀ b c s, a = b ++ .into :: c → tokenAt? ts b = some s → skips s = false) ∧
    ∀ levels, depthAll ts ≤ levels →
      let walk := run (leafEditor skips edit failure) levels ts
      walk.met = (throughFirst (failsAt failure) (unskipped skips ts)).map Prod.snd ∧
      walk.error = walk.met.findSome? failure ∧
      (walk.error ≠ none ↔ ∃ t ∈ walk.met, failure t ≠ none) ∧
      (∀ a, tokenAt? walk.tokens a = none ↔ tokenAt? ts a = none) ∧
      (∀ a kind children, tokenAt? ts a = some (.node kind children) →
        ∃ children', tokenAt? walk.tokens a = some (.node kind children')) ∧
      ∀ a kind text, tokenAt? ts a = some (.leaf kind text) →
        tokenAt? walk.tokens a = some
          (if a ∈ (beforeFailure failure (unskipped skips ts)).map Prod.fst then
            .leaf (edit kind text).1 (edit kind text).2 else .leaf kind text) := by
  refine ⟨⟨map_snd_locatedAll ts, fun _ _ => mem_locatedAll⟩,
    ⟨List.filter_sublist, fun _ _ => mem_unskipped⟩, fun levels enough => ?_⟩
  rw [run_leafEditor skips edit failure ts enough]
  intro walk
  have stops : walk.error = walk.met.findSome? failure := by
    show _ = ((throughFirst _ (unskipped skips ts)).map Prod.snd).findSome? failure
    rw [List.findSome?_map]
    exact (findSome?_throughFirst (f := failure ∘ Prod.snd) _).symm
  refine ⟨rfl, stops, ?_, fun a => ?_, fun a kind children found => ?_, fun a kind text found => ?_⟩
  · rw [stops, ne_eq, List.findSome?_eq_none_iff]
    simp only [Classical.not_forall, exists_prop, ne_eq]
  · rw [tokenAt?_outcome, Option.map_eq_none_iff]
  · rw [tokenAt?_outcome, found]
    exact ⟨_, rfl⟩
  · rw [tokenAt?_outcome, found, Option.map_some, Token.edited, List.append_nil, chosenIn]
    split <;> simp_all [onLeaf]

/-- The walk adds a mark to each leaf, leaves the parts of references alone and stops at a line end.
It meets the reference but not its name, and nothing behind the line end. -/
theorem edits_follow_preorder_sample :
    let skips : Token → Bool := fun t => t.kindName == "VariableRef".toList
    let edit : LeafEdit := fun kind text => (kind, text ++ ['!'])
    let failure : Token → Option Unit := fun t => if t = .newLine ['\n'] then some () else none
    let name : Token := .reference false [.string ['B']]
    let ts : List Token := [.literal none [.string ['a'], name], .newLine ['\n'], .string ['z']]
    let walk := run (leafEditor skips edit failure) 3 ts
    depthAll ts ≤ 3 ∧
      walk.met = [.literal none [.string ['a'], name], .string ['a'], name, .newLine ['\n']] ∧
      walk.error = some () ∧
      tokenAt? walk.tokens [.into] = some (.string ['a', '!']) ∧
      tokenAt? walk.tokens [.into, .next, .into] = some (.string ['B']) ∧
      tokenAt? walk.tokens [.next, .next] = some (.string ['z']) := by
  intro skips edit failure name ts walk
  have enough : depthAll ts ≤ 3 := by decide
  obtain ⟨met, error, -, -, -, leaves⟩ :=
    (edits_follow_preorder skips edit failure ts).2.2 3 enough
  have text : walk.met =
      [.literal none [.string ['a'], name], .string ['a'], name, .newLine ['\n']] :=
    met.trans (by decide)
  refine ⟨enough, text, ?_, leaves [.into] _ _ rfl, leaves [.into, .next, .into] _ _ rfl,
    leaves [.next, .next] _ _ rfl⟩
  exact error.trans (by rw [text]; decide)

end Walk

end DockerfileSyntax
