import ErlangMacros.Directive.Parser

/-!
# How parsing a directive fails

A parser of a directive rejects the tokens, or meets a text that has no value.  `Parser.FailsWith` follows the failures
through the parsers; `parse_failure` lists those of a whole directive.
-/

namespace ErlangMacros

namespace Parser

/-- Every failure of a parser is of a kind. -/
def FailsWith {α : Type} (P : Failure → Prop) (p : Parser α) : Prop :=
  ∀ c f c', p c = .error f c' → P f

variable {α β : Type} {P : Failure → Prop}

theorem FailsWith.pure (a : α) : FailsWith P (pure a : Parser α) := by
  intro c f c' h
  cases h

theorem FailsWith.get : FailsWith P (get : Parser Cursor) := by
  intro c f c' h
  cases h

theorem FailsWith.modify (g : Cursor → Cursor) : FailsWith P (modify g : Parser Unit) := by
  intro c f c' h
  cases h

theorem FailsWith.throw {f : Failure} (hf : P f) : FailsWith P (throw f : Parser α) := by
  intro c f' c' h
  cases h
  exact hf

theorem FailsWith.bind {p : Parser α} {k : α → Parser β} (hp : FailsWith P p) (hk : ∀ a, FailsWith P (k a)) :
    FailsWith P (p >>= k) := by
  intro c f c' h
  change EStateM.bind p k c = _ at h
  unfold EStateM.bind at h
  split at h
  · exact hk _ _ _ _ h
  · next hp' =>
    cases h
    exact hp _ _ _ hp'

theorem FailsWith.map {p : Parser α} (g : α → β) (hp : FailsWith P p) : FailsWith P (g <$> p) := by
  intro c f c' h
  change EStateM.map g p c = _ at h
  unfold EStateM.map at h
  split at h
  · cases h
  · next hp' =>
    cases h
    exact hp _ _ _ hp'

theorem FailsWith.mono {Q : Failure → Prop} {p : Parser α} (hp : FailsWith P p) (h : ∀ f, P f → Q f) :
    FailsWith Q p :=
  fun c f c' hf => h f (hp c f c' hf)

theorem FailsWith.ite {b : Prop} [Decidable b] {p q : Parser α} (hp : FailsWith P p) (hq : FailsWith P q) :
    FailsWith P (if b then p else q) := by
  split
  · exact hp
  · exact hq

/-- The tokens are rejected. -/
def IsRejected (f : Failure) : Prop :=
  ∃ e, f = .fault (.rejected e)

/-- The failures inside a directive. -/
def IsInner (f : Failure) : Prop :=
  IsRejected f ∨ ∃ e, f = .fault (.escape e)

private theorem failsWith_reject (e : ParseError) : FailsWith IsRejected (reject e : Parser α) :=
  .throw ⟨e, rfl⟩

private theorem failsWith_current : FailsWith IsRejected current := by
  refine .bind .get fun c => ?_
  split
  · exact .pure _
  · exact failsWith_reject _

theorem failsWith_ofClass (classes : List TokenClass) : FailsWith IsRejected (ofClass classes) :=
  .bind failsWith_current fun _ => .ite (.bind (.modify _) fun _ => .pure _) (failsWith_reject _)

theorem failsWith_exactly (wanted : TokenClass) (text : Text) : FailsWith IsRejected (exactly wanted text) :=
  .bind failsWith_current fun _ => .ite (.bind (.modify _) fun _ => .pure _) (failsWith_reject _)

theorem failsWith_punctuator (text : Text) : FailsWith IsRejected (punctuator text) :=
  .bind (failsWith_exactly _ _) fun _ => .pure _

theorem failsWith_keyword (text : Text) : FailsWith IsRejected (keyword text) :=
  .bind (failsWith_exactly _ _) fun _ => .pure _

private theorem failsWith_moreParams (seen : List Token) (bound : Nat) :
    FailsWith IsRejected (moreParams seen bound) := by
  induction bound generalizing seen with
  | zero => exact failsWith_reject _
  | succ bound ih =>
    refine .bind (failsWith_ofClass _) fun p => ?_
    have hrest : FailsWith IsRejected (do
        if (← current).isSymbol "," then
          advance
          moreParams (seen ++ [p]) bound
        else
          punctuator ")"
          return seen ++ [p]) :=
      .bind failsWith_current fun _ =>
        .ite (.bind (.modify _) fun _ => ih _) (.bind (failsWith_punctuator _) fun _ => .pure _)
    exact .ite (.bind (failsWith_reject _) fun _ => hrest) hrest

theorem failsWith_paramList : FailsWith IsRejected paramList :=
  .bind (failsWith_punctuator _) fun _ => .bind failsWith_current fun _ =>
    .ite (.bind (.modify _) fun _ => .pure _) (.bind .get fun _ => failsWith_moreParams _ _)

private theorem failsWith_close : FailsWith IsRejected close :=
  .bind (failsWith_punctuator _) fun _ => failsWith_punctuator _

theorem failsWith_untilClose (least : Nat) (e : ParseError) : FailsWith IsRejected (untilClose least e) :=
  .bind .get fun _ => .ite (.bind (.modify _) fun _ => failsWith_reject _)
    (.bind (.modify _) fun _ => .bind failsWith_close fun _ => .pure _)

theorem failsWith_node (action : Action) : FailsWith P (node action) :=
  .bind .get fun _ => .pure _

private theorem failsWith_define : FailsWith IsRejected define := by
  refine .bind (failsWith_keyword _) fun _ => .bind (failsWith_punctuator _) fun _ =>
    .bind (failsWith_ofClass _) fun name => .bind failsWith_current fun _ => ?_
  have hrest : ∀ params, FailsWith IsRejected (do
      punctuator ","
      let body ← untilClose 0 .missingClose
      node (.define name params body)) := fun params =>
    .bind (failsWith_punctuator _) fun _ => .bind (failsWith_untilClose _ _) fun _ => failsWith_node _
  exact .ite (.bind (failsWith_paramList.map _) hrest) (.bind (.pure _) hrest)

private theorem failsWith_nameDirective (text : Text) (action : Token → Action) :
    FailsWith IsRejected (nameDirective text action) :=
  .bind (failsWith_keyword _) fun _ => .bind (failsWith_punctuator _) fun _ =>
    .bind (failsWith_ofClass _) fun _ => .bind failsWith_close fun _ => failsWith_node _

private theorem failsWith_bareDirective (text : Text) (action : Action) :
    FailsWith IsRejected (bareDirective text action) :=
  .bind (failsWith_keyword _) fun _ => .bind (failsWith_punctuator _) fun _ => failsWith_node _

private theorem failsWith_pathDirective (text : Text) (action : Token → Action) :
    FailsWith IsRejected (pathDirective text action) :=
  .bind (failsWith_keyword _) fun _ => .bind (failsWith_punctuator _) fun _ =>
    .bind (failsWith_ofClass _) fun _ => .bind failsWith_close fun _ => failsWith_node _

private theorem failsWith_messageDirective (text : Text) (action : Text → Action) :
    FailsWith IsInner (messageDirective text action) := by
  have hinner : ∀ f, IsRejected f → IsInner f := fun f hf => .inl hf
  refine .bind ((failsWith_keyword _).mono hinner) fun _ => .bind ((failsWith_punctuator _).mono hinner) fun _ =>
    .bind ((failsWith_untilClose _ _).mono hinner) fun term => ?_
  split
  · exact failsWith_node _
  · exact .throw (.inr ⟨_, rfl⟩)

private theorem failsWith_file : FailsWith IsRejected file := by
  refine .bind (failsWith_keyword _) fun _ => .bind (failsWith_punctuator _) fun _ =>
    .bind (failsWith_ofClass _) fun name => .bind (failsWith_punctuator _) fun _ =>
      .bind (failsWith_ofClass _) fun line => ?_
  have hrest : FailsWith IsRejected (do close; node (.file name line)) :=
    .bind failsWith_close fun _ => failsWith_node _
  exact .ite (.bind .get fun _ => .bind (.modify _) fun _ => .bind (failsWith_reject _) fun _ => hrest) hrest

/-- A parser for a single directive only rejects tokens, unless the directive has a message. -/
theorem failsWith_ofKeyword (k : Keyword) :
    FailsWith IsRejected (ofKeyword k) ∨ ∃ text action, ofKeyword k = messageDirective text action := by
  cases k with
  | define => exact .inl failsWith_define
  | undef => exact .inl (failsWith_nameDirective _ _)
  | ifdef => exact .inl (failsWith_nameDirective _ _)
  | ifndef => exact .inl (failsWith_nameDirective _ _)
  | otherwise => exact .inl (failsWith_bareDirective _ _)
  | endif => exact .inl (failsWith_bareDirective _ _)
  | includeFile => exact .inl (failsWith_pathDirective _ _)
  | includeLib => exact .inl (failsWith_pathDirective _ _)
  | error => exact .inr ⟨_, _, rfl⟩
  | warning => exact .inr ⟨_, _, rfl⟩
  | file => exact .inl failsWith_file

private theorem isInner_ofKeyword (k : Keyword) : FailsWith IsInner (ofKeyword k) := by
  rcases failsWith_ofKeyword k with h | ⟨text, action, h⟩
  · exact h.mono fun f hf => .inl hf
  · rw [h]
    exact failsWith_messageDirective text action

/-- The failures of a whole directive. -/
def IsOuter (f : Failure) : Prop :=
  (∃ e, f = .error e) ∨ IsInner f ∨ ∃ text, f = .fault (.unknownKeyword text)

private theorem failsWith_diagnosed (text : Text) {p : Parser Directive} (hp : FailsWith IsInner p) :
    FailsWith IsOuter (diagnosed text p) := by
  intro c f c' h
  unfold diagnosed at h
  split at h
  · cases h
    exact .inl ⟨_, rfl⟩
  · exact .inr (.inl (hp c f c' h))

private theorem failsWith_directive : FailsWith IsOuter directive := by
  have hinner : ∀ f, IsRejected f → IsOuter f := fun f hf => .inr (.inl (.inl hf))
  refine .bind ((failsWith_exactly _ _).mono hinner) fun _ => .bind (failsWith_current.mono hinner) fun t => ?_
  dsimp only
  split
  · exact failsWith_diagnosed _ (isInner_ofKeyword _)
  · exact .throw (.inr (.inr ⟨_, rfl⟩))

end Parser

/-- How parsing a directive fails. -/
theorem parse_failure {tokens : List Token} {f : Failure} (h : Directive.parse tokens = .error f) :
    Parser.IsOuter f := by
  unfold Directive.parse at h
  split at h
  · cases h
  · next hf =>
    cases h
    exact Parser.failsWith_directive _ _ _ hf

end ErlangMacros
