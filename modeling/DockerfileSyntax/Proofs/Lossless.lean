import DockerfileSyntax.Proofs.Lossless.Grammar

/-!
# A successful reading renders to what it has read

What the grammars keep is put together here: a declaration, an owner, a start period or a pair
renders to the whole text, and the tokens of a production render to the bytes between the
offset where the reading began and the offset where it ended, wherever in a text that was.
-/

namespace DockerfileSyntax

/-! ## Slices by bytes -/

namespace Text

/-- The text without its first `n` bytes. -/
def dropBytes : Nat → Text → Text
  | 0, t => t
  | _ + 1, [] => []
  | n + 1, c :: t => dropBytes (n + 1 - c.utf8Size) t

/-- The first `n` bytes of the text. -/
def takeBytes : Nat → Text → Text
  | 0, _ => []
  | _ + 1, [] => []
  | n + 1, c :: t => c :: takeBytes (n + 1 - c.utf8Size) t

/-- The bytes of the text between two offsets. -/
def slice (t : Text) (i j : Nat) : Text := takeBytes (j - i) (dropBytes i t)

theorem dropBytes_append (s t : Text) : dropBytes (utf8Length s) (s ++ t) = t := by
  induction s with
  | nil => cases t <;> rfl
  | cons c s ih =>
    have size : c.utf8Size + utf8Length s = (c.utf8Size + utf8Length s - 1) + 1 := by
      have := c.utf8Size_pos
      omega
    rw [utf8Length_cons, List.cons_append, size, dropBytes, ← size, Nat.add_sub_cancel_left]
    exact ih

theorem takeBytes_append (s t : Text) : takeBytes (utf8Length s) (s ++ t) = s := by
  induction s with
  | nil => cases t <;> rfl
  | cons c s ih =>
    have size : c.utf8Size + utf8Length s = (c.utf8Size + utf8Length s - 1) + 1 := by
      have := c.utf8Size_pos
      omega
    rw [utf8Length_cons, List.cons_append, size, takeBytes, ← size, Nat.add_sub_cancel_left, ih]

/-- The slice between the ends of two beginnings of a text. -/
theorem slice_append (s t u : Text) :
    slice (s ++ (t ++ u)) (utf8Length s) (utf8Length s + utf8Length t) = t := by
  rw [slice, dropBytes_append, Nat.add_sub_cancel_left, takeBytes_append]

end Text

/-- The text between two places of one text is the slice between their offsets. -/
theorem Place.slice_eq {text t r : Text} {p : Place} (h : (Place.start text).Leads p)
    (ht : p.rest = t ++ r) : text.slice p.offset (p.pass t).offset = t := by
  obtain ⟨s, hs, rfl⟩ := h
  have whole : text = s ++ (t ++ r) := by
    rw [← ht]
    exact hs
  have offset : ((Place.start text).pass s).offset = s.utf8Length := Nat.zero_add _
  show text.slice _ (((Place.start text).pass s).offset + t.utf8Length) = t
  rw [offset, whole]
  exact Text.slice_append s t r

namespace Parser

/-- A lossless parser, from wherever in a text it starts, gives the slice that it moves over. -/
theorem Keeps.slice_eq {α : Type} {p : Parser α} [hp : Regular p] {f : α → Text}
    (h : Lossless p f) {text : Text} {c d : Cursor} {a : α}
    (hc : (Place.start text).Leads c.toPlace) (hr : p c = .ok a d) :
    (Place.start text).Leads d.toPlace ∧ f a = text.slice c.offset d.offset := by
  obtain ⟨same, leads⟩ := hp.of_ok hr
  refine ⟨hc.trans leads, ?_⟩
  obtain ⟨t, ht, hd⟩ := leads
  have here : c.rest = f a ++ d.rest := h.append_eq same
  have read : t = f a := List.append_cancel_right (ht.symm.trans here)
  rw [show d.offset = (c.toPlace.pass t).offset from congrArg Place.offset hd, ← read]
  exact (Place.slice_eq hc ht).symm

/-- What a lossless parser makes of a whole text has that text. -/
theorem Keeps.text_eq {α : Type} {p : Parser α} [Regular p] {f : α → Text} (h : Lossless p f)
    {text : Text} {a : α} (hr : complete p text = .ok a) : f a = text := by
  have whole : text = f a ++ [] := h.append_eq (complete_eq_ok.mp hr)
  rw [whole, List.append_nil]

end Parser

/-- Reading all of a text succeeds just as the parser does on the whole text. -/
theorem readAs_eq_ok {α : Type} {cause : Failure → Error} {p : Parser α} {text : Text} {a : α} :
    readAs cause p text = .ok a ↔ Parser.complete p text = .ok a := by
  unfold readAs
  cases Parser.complete p text with
  | ok b =>
    show (Except.ok b : Except Error α) = .ok a ↔ _
    simp only [Except.ok.injEq]
  | error failure =>
    show (Except.error (cause failure) : Except Error α) = .ok a ↔ _
    simp only [reduceCtorEq]

theorem readAll_eq_ok {α : Type} {p : Parser α} {text : Text} {a : α} :
    readAll p text = .ok a ↔ Parser.complete p text = .ok a :=
  readAs_eq_ok

theorem readAll_eq_error {α : Type} {p : Parser α} {text : Text} {error : Error} :
    readAll p text = .error error ↔
      ∃ failure, Parser.complete p text = .error failure ∧ error = .parse failure := by
  unfold readAll readAs
  cases Parser.complete p text with
  | ok a =>
    show (Except.ok a : Except Error α) = .error error ↔ _
    simp only [reduceCtorEq, false_and, exists_false]
  | error failure =>
    show (Except.error (.parse failure) : Except Error α) = .error error ↔ _
    simp only [Except.error.injEq, exists_eq_left', eq_comm]

/-! ## Grammars of keys and values -/

/-- The parsers of keys and values: the grammars of one token, going back, and alternatives. -/
inductive IsValueGrammar : {kind : ValueKind} → Parser kind.Carrier → Prop
  | single {kind : ValueKind} (production : ValueProduction kind) :
      IsValueGrammar production.parser
  | attempt {kind : ValueKind} {p : Parser kind.Carrier} :
      IsValueGrammar p → IsValueGrammar (Parser.attempt p)
  | firstOf {kind : ValueKind} {ps : List (Parser kind.Carrier)} :
      (∀ p ∈ ps, IsValueGrammar p) → IsValueGrammar (Parser.firstOf ps)

open DockerfileSyntax.Parser

theorem lossless_valueProduction {kind : ValueKind} (production : ValueProduction kind) :
    Lossless production.parser fun token => (kind.toToken token).render := by
  cases production with
  | keyword escape name => exact Grammar.lossless_keyword escape name
  | identifier rules => exact Grammar.lossless_identifier rules
  | aggregate rules => exact Grammar.lossless_identifierAggregate rules
  | literal escape spacing excluded => exact Grammar.lossless_literal escape spacing excluded

theorem IsValueGrammar.regular_lossless {kind : ValueKind} {p : Parser kind.Carrier}
    (h : IsValueGrammar p) :
    Regular p ∧ Lossless p fun token => (kind.toToken token).render := by
  induction h with
  | single production => exact ⟨inferInstance, lossless_valueProduction production⟩
  | attempt _ ih => exact ⟨ih.1.attempt, ih.2.attempt⟩
  | firstOf _ ih =>
    exact ⟨regular_firstOf fun p hp => (ih p hp).1,
      Lossless.firstOf (fun p hp => (ih p hp).1) fun p hp => (ih p hp).2⟩

theorem IsValueGrammar.lossless_keyValue {K V : ValueKind} {key : Parser K.Carrier}
    {value : Parser V.Carrier} (hk : IsValueGrammar key) (hv : IsValueGrammar value)
    (escape : Char) (isFlag : Bool) :
    Regular (Grammar.keyValue escape isFlag key value) ∧
      Lossless (Grammar.keyValue escape isFlag key value) KeyValue.render := by
  obtain ⟨_, hk⟩ := hk.regular_lossless
  obtain ⟨_, hv⟩ := hv.regular_lossless
  exact ⟨inferInstance, Grammar.lossless_keyValue escape isFlag hk hv⟩

/-! ## Productions -/

namespace Production

mutual

/-- Everything that the production reads is among its tokens. Quotes around any of three items are
shown once only, so a production with such items does not qualify. -/
def showsAll : Production → Bool
  | sequence items => showsAllOf items
  | attempt item => showsAll item
  | optional item => showsAll item
  | many item => showsAll item
  | many1 item => showsAll item
  | firstOf alternatives => showsAllOf alternatives
  | instruction _ _ arguments => showsAll arguments
  | argumentTokens _ arguments => showsAll arguments
  | quoted _ _ _ => false
  | endOfInput | fail _ | satisfy _ _ | takeWhile _ | eat _ | symbol _ | punctuation _ | newLine
  | continuation _ | escapedChar _ | comment | blankRun | whitespace | commentLine
  | trailingComments | blankLine | reference _ | keyword _ _ | literal _ _ _
  | literalContent _ _ _ _ | identifier _ | identifierAggregate _ | identifierContent _ _
  | keyValue _ _ _ _ _ => true

/-- Each of the productions shows everything that it reads. -/
def showsAllOf : List Production → Bool
  | [] => true
  | item :: items => showsAll item && showsAllOf items

end

theorem lossless_single {α : Type} {toToken : α → Token} {p : Parser α} {text : α → Text}
    (h : Lossless p text) (ht : ∀ a, (toToken a).render = text a) :
    Lossless (single toToken p) Token.renderAll :=
  Keeps.bind h fun a => Keeps.pure (by simp [ht])

theorem lossless_triviaTokens {p : Parser (List Trivia)} (h : Lossless p Grammar.triviaText) :
    Lossless (triviaTokens p) Token.renderAll :=
  Keeps.bind h fun _ => Keeps.pure rfl

theorem lossless_inOrder {ps : List (Parser (List Token))} (hr : ∀ p ∈ ps, Regular p)
    (h : ∀ p ∈ ps, Lossless p Token.renderAll) : Lossless (inOrder ps) Token.renderAll := by
  induction ps with
  | nil => exact Keeps.pure rfl
  | cons p ps ih =>
    have := regular_inOrder fun q hq => hr q (List.mem_cons_of_mem _ hq)
    have rest := ih (fun q hq => hr q (List.mem_cons_of_mem _ hq))
      fun q hq => h q (List.mem_cons_of_mem _ hq)
    exact Keeps.bind (h p List.mem_cons_self) fun first => Keeps.bind rest fun others =>
      Keeps.pure (by simp)

mutual

theorem regular_lossless : ∀ production : Production, production.showsAll = true →
    Regular production.parser ∧ Lossless production.parser Token.renderAll
  | sequence items, h => by
    have all := regular_lossless_all items h
    exact ⟨regular_inOrder fun p hp => (all p hp).1,
      lossless_inOrder (fun p hp => (all p hp).1) fun p hp => (all p hp).2⟩
  | attempt item, h => by
    have := regular_lossless item h
    exact ⟨this.1.attempt, this.2.attempt⟩
  | optional item, h => by
    obtain ⟨_, h⟩ := regular_lossless item h
    refine ⟨?_, Keeps.bind h.optional fun found => Keeps.pure (by cases found <;> rfl)⟩
    unfold parser
    infer_instance
  | many item, h => by
    obtain ⟨_, h⟩ := regular_lossless item h
    refine ⟨?_, Keeps.bind h.many fun found => Keeps.pure (renderAll_flatten found).symm⟩
    unfold parser
    infer_instance
  | many1 item, h => by
    obtain ⟨_, h⟩ := regular_lossless item h
    refine ⟨?_, Keeps.bind h.many1 fun found => Keeps.pure (renderAll_flatten found).symm⟩
    unfold parser
    infer_instance
  | firstOf alternatives, h => by
    have all := regular_lossless_all alternatives h
    exact ⟨regular_firstOf fun p hp => (all p hp).1,
      Lossless.firstOf (fun p hp => (all p hp).1) fun p hp => (all p hp).2⟩
  | instruction escape name arguments, h => by
    obtain ⟨_, h⟩ := regular_lossless arguments h
    refine ⟨?_, Keeps.bind (Grammar.lossless_heading ..) fun heading => Keeps.bind h fun content =>
      Keeps.pure (by simp)⟩
    unfold parser
    infer_instance
  | argumentTokens escape arguments, h => by
    obtain ⟨_, h⟩ := regular_lossless arguments h
    refine ⟨?_, Keeps.bind (Grammar.lossless_framed escape h) fun found =>
      Keeps.pure (by simp [Grammar.triviaText])⟩
    unfold parser
    infer_instance
  | quoted _ _ _, h => nomatch h
  | endOfInput, _ => by
    unfold parser
    exact ⟨inferInstance, Keeps.bind lossless_endOfInput fun _ => Keeps.pure rfl⟩
  | fail _, _ => by
    unfold parser
    exact ⟨inferInstance, Keeps.fail⟩
  | satisfy _ _, _ => by
    unfold parser
    exact ⟨inferInstance, lossless_single (lossless_satisfy ..) fun _ => rfl⟩
  | takeWhile _, _ => by
    unfold parser
    exact ⟨inferInstance, lossless_single (lossless_takeWhile _) fun _ => rfl⟩
  | eat _, _ | symbol _, _ | punctuation _, _ => by
    unfold parser
    exact ⟨inferInstance, lossless_single (lossless_eat _) fun _ => rfl⟩
  | newLine, _ => by
    unfold parser
    exact ⟨inferInstance, lossless_single Grammar.lossless_newLine fun _ => rfl⟩
  | continuation _, _ => by
    unfold parser
    exact ⟨inferInstance, lossless_single (Grammar.lossless_continuation _) fun _ => rfl⟩
  | escapedChar _, _ => by
    unfold parser
    exact ⟨inferInstance, lossless_single (Grammar.lossless_escapedChar _) fun _ => rfl⟩
  | comment, _ => by
    unfold parser
    exact ⟨inferInstance, lossless_single Grammar.lossless_comment fun _ => rfl⟩
  | blankRun, _ => by
    unfold parser
    exact ⟨inferInstance, lossless_triviaTokens Grammar.lossless_blankRun⟩
  | whitespace, _ => by
    unfold parser
    exact ⟨inferInstance, lossless_triviaTokens Grammar.lossless_whitespace⟩
  | commentLine, _ => by
    unfold parser
    exact ⟨inferInstance, lossless_triviaTokens Grammar.lossless_commentLine⟩
  | trailingComments, _ => by
    unfold parser
    exact ⟨inferInstance, lossless_triviaTokens Grammar.lossless_trailingComments⟩
  | blankLine, _ => by
    unfold parser
    exact ⟨inferInstance, lossless_triviaTokens Grammar.lossless_blankLine⟩
  | reference _, _ => by
    unfold parser
    exact ⟨inferInstance, lossless_single (Grammar.lossless_reference _) fun _ => rfl⟩
  | keyword _ _, _ => by
    unfold parser
    exact ⟨inferInstance, lossless_single (Grammar.lossless_keyword ..) fun _ => rfl⟩
  | literal _ _ _, _ => by
    unfold parser
    exact ⟨inferInstance, lossless_single (Grammar.lossless_literal ..) fun _ => rfl⟩
  | literalContent _ _ _ _, _ => by
    unfold parser
    exact ⟨inferInstance, Grammar.lossless_literalContent ..⟩
  | identifier _, _ => by
    unfold parser
    exact ⟨inferInstance, lossless_single (Grammar.lossless_identifier _) fun _ => rfl⟩
  | identifierAggregate _, _ => by
    unfold parser
    exact ⟨inferInstance, lossless_single (Grammar.lossless_identifierAggregate _) fun _ => rfl⟩
  | identifierContent _ _, _ => by
    unfold parser
    exact ⟨inferInstance, Grammar.lossless_identifierContent ..⟩
  | keyValue isFlag K V key value, _ => by
    unfold parser
    refine ⟨inferInstance, Keeps.bind ?_ fun found => Keeps.pure rfl⟩
    exact Grammar.lossless_keyValue _ _ (lossless_valueProduction key)
      (lossless_valueProduction value)

theorem regular_lossless_all : ∀ items : List Production, showsAllOf items = true →
    ∀ p ∈ parsers items, Regular p ∧ Lossless p Token.renderAll
  | [], _ => by
    intro p hp
    cases hp
  | item :: items, h => by
    obtain ⟨first, others⟩ := Bool.and_eq_true_iff.mp h
    intro p hp
    rcases List.mem_cons.mp hp with rfl | hp
    · exact regular_lossless item first
    · exact regular_lossless_all items others p hp

end

end Production

/-! ## Results that are computed -/

theorem exists_of_isOk {ε α : Type} {x : Except ε α} (h : x.isOk = true) : ∃ a, x = .ok a := by
  cases x with
  | ok a => exact ⟨a, rfl⟩
  | error e => cases h

theorem exists_of_not_isOk {ε α : Type} {x : Except ε α} (h : x.isOk = false) :
    ∃ e, x = .error e := by
  cases x with
  | ok a => cases h
  | error e => exact ⟨e, rfl⟩

theorem eq_ok_of_toOption {ε α : Type} {x : Except ε α} {a : α} (h : x.toOption = some a) :
    x = .ok a := by
  cases x with
  | ok a' => rw [Option.some.inj h]
  | error e => cases h

/-- A result, with what is computed of it. -/
theorem exists_of_computed {ε α β : Type} {x : Except ε α} {f : α → β} {b : β}
    (h : x.toOption.map f = some b) : ∃ a, x = .ok a ∧ f a = b := by
  obtain ⟨a, read, computed⟩ := Option.map_eq_some_iff.mp h
  exact ⟨a, eq_ok_of_toOption read, computed⟩

/-! ## What was read -/

/-- What reads is lossless: whenever a text reads as a declaration, an owner, a start period or a
pair, that renders to the text; and wherever in a text a production begins to read, its tokens
render to the slice between the offset where it began and the offset where it ended. -/
theorem parse_renders (escape : Char) (text : Text) :
    (∀ a, Arg.parse escape text = .ok a → a.render = text) ∧
    (∀ o, Owner.parse escape text = .ok o → o.render = text) ∧
    (∀ p, StartPeriod.parse escape text = .ok p → p.render = text) ∧
    (∀ (K V : ValueKind) (isFlag : Bool) (key : Parser K.Carrier) (value : Parser V.Carrier) p,
      IsValueGrammar key → IsValueGrammar value →
      KeyValue.parse escape isFlag key value text = .ok p → p.render = text) ∧
    ∀ (production : Production) (c d : Cursor) (tokens : List Token),
      production.showsAll = true → (Place.start text).Leads c.toPlace →
      production.parser c = .ok tokens d →
      (Place.start text).Leads d.toPlace ∧
        Token.renderAll tokens = text.slice c.offset d.offset := by
  -- whole texts first, for each kind of result, and then slices from any cursor
  refine ⟨fun a h => ?_, fun o h => ?_, fun p h => ?_, ?_, ?_⟩
  · exact (Grammar.lossless_arg escape).text_eq (readAll_eq_ok.mp h)
  · exact (Grammar.lossless_owner escape).text_eq (readAll_eq_ok.mp h)
  · have key := IsValueGrammar.single (.keyword escape StartPeriod.keyName)
    have value := IsValueGrammar.single (.literal escape .ends [])
    obtain ⟨_, whole⟩ := key.lossless_keyValue value escape true
    exact whole.text_eq (readAll_eq_ok.mp h)
  · intro K V isFlag key value p hk hv h
    obtain ⟨_, whole⟩ := hk.lossless_keyValue hv escape isFlag
    exact whole.text_eq (readAll_eq_ok.mp h)
  · intro production c d tokens shown inText h
    obtain ⟨_, lossless⟩ := production.regular_lossless shown
    exact lossless.slice_eq inText h

/-- The back quote escapes, and the production begins to read behind a character of two bytes. -/
theorem parse_renders_samples :
    (∃ a, Arg.parse '`' "ARG x=\"a b\"`\n# c".toList = .ok a ∧
      a.render = "ARG x=\"a b\"`\n# c".toList) ∧
    (∃ o, Owner.parse '`' "u:'g'".toList = .ok o ∧ o.render = "u:'g'".toList) ∧
    (∃ p, StartPeriod.parse '`' "--start-period=3s".toList = .ok p ∧
      p.render = "--start-period=3s".toList) ∧
    (∃ p, KeyValue.parse '`' false (ValueProduction.identifier (Identifier.rules '`')).parser
        (ValueProduction.keyword '`' ['Y']).parser "k:y".toList = .ok p ∧
      p.render = "k:y".toList) ∧
    ∃ tokens d, (Production.reference '`').parser ((Cursor.start "é$x z".toList).pass ['é']) =
      .ok tokens d ∧ Token.renderAll tokens = Text.slice "é$x z".toList 2 d.offset := by
  obtain ⟨a, ha⟩ := exists_of_isOk (x := Arg.parse '`' "ARG x=\"a b\"`\n# c".toList)
    (by decide +kernel)
  obtain ⟨o, ho⟩ := exists_of_isOk (x := Owner.parse '`' "u:'g'".toList) (by decide +kernel)
  obtain ⟨p, hp⟩ := exists_of_isOk (x := StartPeriod.parse '`' "--start-period=3s".toList)
    (by decide +kernel)
  obtain ⟨q, hq⟩ := exists_of_isOk (x := KeyValue.parse '`' false
    (ValueProduction.identifier (Identifier.rules '`')).parser
    (ValueProduction.keyword '`' ['Y']).parser "k:y".toList) (by decide +kernel)
  obtain ⟨⟨tokens, r⟩, hr⟩ := Option.isSome_iff_exists.mp
    (show (run (Production.reference '`').parser "$x z".toList).isSome = true by decide +kernel)
  obtain ⟨_, -⟩ := Production.regular_lossless (.reference '`') rfl
  obtain ⟨d, hd, -, -⟩ := Regular.ok_of_run
    (c := (Cursor.start "é$x z".toList).pass ['é']) hr
  refine ⟨⟨a, ha, (parse_renders '`' _).1 a ha⟩, ⟨o, ho, (parse_renders '`' _).2.1 o ho⟩,
    ⟨p, hp, (parse_renders '`' _).2.2.1 p hp⟩, ⟨q, hq, ?_⟩, tokens, d, hd, ?_⟩
  · exact (parse_renders '`' _).2.2.2.1 _ _ _ _ _ q (.single _) (.single _) hq
  · exact ((parse_renders '`' _).2.2.2.2 _ _ d tokens rfl (Place.leads_pass rfl) hd).2

end DockerfileSyntax
