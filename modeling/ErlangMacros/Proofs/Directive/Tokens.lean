import ErlangMacros.Macro.Definition
import ErlangMacros.Proofs.Macro.Table

/-!
# What a parsed directive is made of

The tokens that a parser gives back are among those that it was given.  `Parser.Yields` follows this through the
parsers.  So a directive keeps all its tokens, asks for what its keyword says, and names no other tokens in what it asks
for (`parse_yields`).  A definition text without `=` gives one token more (`ofDefinition_yields`).
-/

namespace ErlangMacros

/-- The keyword of an action. -/
def Action.keyword : Action → Keyword
  | .define _ _ _ => .define
  | .undef _ => .undef
  | .ifdef _ => .ifdef
  | .ifndef _ => .ifndef
  | .otherwise => .otherwise
  | .endif => .endif
  | .includeFile _ => .includeFile
  | .includeLib _ => .includeLib
  | .error _ => .error
  | .warning _ => .warning
  | .file _ _ => .file

/-- The action names only the given tokens, and sets a line that is a number. -/
def Action.IsOver (ts : List Token) : Action → Prop
  | .define name _ body => name ∈ ts ∧ body ⊆ ts
  | .undef name | .ifdef name | .ifndef name => name ∈ ts
  | .includeFile path | .includeLib path => path ∈ ts
  | .file name line => name ∈ ts ∧ (integerValue? line.text).isSome = true
  | .otherwise | .endif | .error _ | .warning _ => True

/-- The directive has the given tokens and keyword, and its action is over these tokens. -/
structure Directive.IsMadeOf (ts : List Token) (k : Keyword) (d : Directive) : Prop where
  tokens_eq : d.tokens = ts
  keyword_eq : d.action.keyword = k
  isOver : d.action.IsOver ts

/-- A macro that a directive defines has no other tokens in its body. -/
theorem Directive.IsMadeOf.body_subset {ts body : List Token} {k : Keyword} {d : Directive} {name : Token}
    {params : Option (List Token)} (h : d.IsMadeOf ts k) (haction : d.action = .define name params body) :
    body ⊆ ts := by
  have hover := h.isOver
  rw [haction] at hover
  exact hover.2

namespace Parser

variable {α β : Type} {ts : List Token} {P : α → Prop} {Q : β → Prop}

theorem bind_eq_ok {p : Parser α} {k : α → Parser β} {c c' : Cursor} {b : β} (h : (p >>= k) c = .ok b c') :
    ∃ a c₁, p c = .ok a c₁ ∧ k a c₁ = .ok b c' := by
  change EStateM.bind p k c = _ at h
  unfold EStateM.bind at h
  split at h
  · next a c₁ hp => exact ⟨a, c₁, hp, h⟩
  · cases h

/-- Over the tokens `ts` a parser gives only results of a kind, and leaves the tokens as they are. -/
def Yields (ts : List Token) (P : α → Prop) (p : Parser α) : Prop :=
  ∀ c a c', c.tokens = ts → p c = .ok a c' → c'.tokens = ts ∧ P a

theorem Yields.pure {a : α} (ha : P a) : Yields ts P (pure a : Parser α) := by
  intro c a' c' hc h
  cases h
  exact ⟨hc, ha⟩

theorem Yields.get : Yields ts (fun c => c.tokens = ts) (get : Parser Cursor) := by
  intro c a c' hc h
  cases h
  exact ⟨hc, hc⟩

theorem Yields.modify {g : Cursor → Cursor} (hg : ∀ c, (g c).tokens = c.tokens) :
    Yields ts (fun _ => True) (modify g : Parser Unit) := by
  intro c a c' hc h
  cases h
  exact ⟨(hg c).trans hc, trivial⟩

theorem Yields.throw (f : Failure) : Yields ts P (throw f : Parser α) := by
  intro c a c' hc h
  cases h

theorem Yields.bind {p : Parser α} {k : α → Parser β} (hp : Yields ts P p) (hk : ∀ a, P a → Yields ts Q (k a)) :
    Yields ts Q (p >>= k) := by
  intro c b c' hc h
  obtain ⟨a, c₁, hp', hk'⟩ := bind_eq_ok h
  obtain ⟨hc₁, ha⟩ := hp c a c₁ hc hp'
  exact hk a ha c₁ b c' hc₁ hk'

theorem Yields.map {p : Parser α} {g : α → β} (hp : Yields ts P p) (hg : ∀ a, P a → Q (g a)) :
    Yields ts Q (g <$> p) := by
  intro c b c' hc h
  change EStateM.map g p c = _ at h
  unfold EStateM.map at h
  split at h
  · next a _ hp' =>
    cases h
    exact (hp c a c' hc hp').imp_right (hg a)
  · cases h

theorem Yields.ite {b : Prop} [Decidable b] {p q : Parser α} (hp : Yields ts P p) (hq : Yields ts P q) :
    Yields ts P (if b then p else q) := by
  split
  · exact hp
  · exact hq

private theorem yields_advance : Yields ts (fun _ => True) advance :=
  .modify fun _ => rfl

private theorem yields_seek (pos : Int) : Yields ts (fun _ => True) (seek pos) :=
  .modify fun _ => rfl

theorem current_eq_ok {c c' : Cursor} {t : Token} (h : current c = .ok t c') : c.token? = some t ∧ c' = c := by
  obtain ⟨_, _, hget, htoken⟩ := bind_eq_ok h
  cases hget
  rcases ht : c.token? with _ | t' <;> rw [ht] at htoken <;> cases htoken
  exact ⟨rfl, rfl⟩

private theorem exactly_eq_ok {wanted : TokenClass} {text : Text} {c c' : Cursor} {t : Token}
    (h : exactly wanted text c = .ok t c') : c' = { c with pos := c.pos + 1 } := by
  obtain ⟨_, _, hcurrent, hmatch⟩ := bind_eq_ok h
  obtain ⟨-, rfl⟩ := current_eq_ok hcurrent
  split at hmatch
  · obtain ⟨_, _, hadvance, hpure⟩ := bind_eq_ok hmatch
    cases hadvance
    cases hpure
    rfl
  · cases hmatch

private theorem yields_current : Yields ts (· ∈ ts) current := by
  intro c t c' hc h
  obtain ⟨ht, rfl⟩ := current_eq_ok h
  refine ⟨hc, ?_⟩
  rw [← hc]
  unfold Cursor.token? Cursor.tokenAt? at ht
  split at ht
  · exact List.mem_of_getElem? ht
  · cases ht

private theorem yields_ofClass (classes : List TokenClass) : Yields ts (· ∈ ts) (ofClass classes) :=
  .bind yields_current fun _ ht => .ite (.bind yields_advance fun _ _ => .pure ht) (.throw _)

private theorem yields_exactly (wanted : TokenClass) (text : Text) : Yields ts (· ∈ ts) (exactly wanted text) :=
  .bind yields_current fun _ ht => .ite (.bind yields_advance fun _ _ => .pure ht) (.throw _)

theorem yields_punctuator (text : Text) : Yields ts (fun _ => True) (punctuator text) :=
  .bind (yields_exactly _ _) fun _ _ => .pure trivial

theorem yields_keyword (text : Text) : Yields ts (fun _ => True) (keyword text) :=
  .bind (yields_exactly _ _) fun _ _ => .pure trivial

private theorem yields_moreParams (seen : List Token) (bound : Nat) :
    Yields ts (fun _ => True) (moreParams seen bound) := by
  induction bound generalizing seen with
  | zero => exact .throw _
  | succ bound ih =>
    refine .bind (yields_ofClass _) fun p _ => ?_
    have hrest : Yields ts (fun _ => True) (do
        if (← current).isSymbol "," then
          advance
          moreParams (seen ++ [p]) bound
        else
          punctuator ")"
          return seen ++ [p]) :=
      .bind yields_current fun _ _ => .ite (.bind yields_advance fun _ _ => ih _)
        (.bind (yields_punctuator _) fun _ _ => .pure trivial)
    exact .ite (.bind (P := fun _ => True) (.throw _) fun _ _ => hrest) hrest

private theorem yields_paramList : Yields ts (fun _ => True) paramList :=
  .bind (yields_punctuator _) fun _ _ => .bind yields_current fun _ _ =>
    .ite (.bind yields_advance fun _ _ => .pure trivial) (.bind .get fun _ _ => yields_moreParams _ _)

private theorem yields_close : Yields ts (fun _ => True) close :=
  .bind (yields_punctuator _) fun _ _ => yields_punctuator _

theorem yields_untilClose (least : Nat) (e : ParseError) : Yields ts (· ⊆ ts) (untilClose least e) := by
  refine .bind .get fun c hc => .ite (.bind (yields_seek _) fun _ _ => .throw _) ?_
  refine .bind (yields_seek _) fun _ _ => .bind yields_close fun _ _ => .pure ?_
  rw [← hc]
  exact List.Subset.trans (List.drop_subset _ _) (List.take_subset _ _)

/-- The directive of an action is made of all tokens. -/
theorem yields_node {action : Action} {k : Keyword} (hk : action.keyword = k) (hover : action.IsOver ts) :
    Yields ts (Directive.IsMadeOf ts k) (node action) :=
  .bind .get fun _ hc => .pure ⟨hc, hk, hover⟩

private theorem yields_define : Yields ts (Directive.IsMadeOf ts .define) define := by
  refine .bind (yields_keyword _) fun _ _ => .bind (yields_punctuator _) fun _ _ =>
    .bind (yields_ofClass _) fun name hname => .bind yields_current fun _ _ => ?_
  have hrest : ∀ params, Yields ts (Directive.IsMadeOf ts .define) (do
      punctuator ","
      let body ← untilClose 0 .missingClose
      node (.define name params body)) := fun params =>
    .bind (yields_punctuator _) fun _ _ => .bind (yields_untilClose _ _) fun body hbody =>
      yields_node rfl ⟨hname, hbody⟩
  exact .ite (.bind (P := fun _ => True) (yields_paramList.map fun _ _ => trivial) fun params _ => hrest params)
    (.bind (P := fun _ => True) (.pure trivial) fun params _ => hrest params)

private theorem yields_nameDirective (text : Text) {action : Token → Action} {k : Keyword}
    (hk : ∀ t, (action t).keyword = k) (hover : ∀ t ∈ ts, (action t).IsOver ts) :
    Yields ts (Directive.IsMadeOf ts k) (nameDirective text action) :=
  .bind (yields_keyword _) fun _ _ => .bind (yields_punctuator _) fun _ _ =>
    .bind (yields_ofClass _) fun t ht => .bind yields_close fun _ _ => yields_node (hk t) (hover t ht)

private theorem yields_bareDirective (text : Text) {action : Action} {k : Keyword} (hk : action.keyword = k)
    (hover : action.IsOver ts) : Yields ts (Directive.IsMadeOf ts k) (bareDirective text action) :=
  .bind (yields_keyword _) fun _ _ => .bind (yields_punctuator _) fun _ _ => yields_node hk hover

private theorem yields_pathDirective (text : Text) {action : Token → Action} {k : Keyword}
    (hk : ∀ t, (action t).keyword = k) (hover : ∀ t ∈ ts, (action t).IsOver ts) :
    Yields ts (Directive.IsMadeOf ts k) (pathDirective text action) :=
  .bind (yields_keyword _) fun _ _ => .bind (yields_punctuator _) fun _ _ =>
    .bind (yields_ofClass _) fun t ht => .bind yields_close fun _ _ => yields_node (hk t) (hover t ht)

private theorem yields_messageDirective (text : Text) {action : Text → Action} {k : Keyword}
    (hk : ∀ message, (action message).keyword = k) (hover : ∀ message, (action message).IsOver ts) :
    Yields ts (Directive.IsMadeOf ts k) (messageDirective text action) := by
  refine .bind (yields_keyword _) fun _ _ => .bind (yields_punctuator _) fun _ _ =>
    .bind (yields_untilClose _ _) fun term _ => ?_
  split
  · exact yields_node (hk _) (hover _)
  · exact .throw _

private theorem yields_file : Yields ts (Directive.IsMadeOf ts .file) file := by
  refine .bind (yields_keyword _) fun _ _ => .bind (yields_punctuator _) fun _ _ =>
    .bind (yields_ofClass _) fun name hname => .bind (yields_punctuator _) fun _ _ =>
      .bind (yields_ofClass _) fun line _ => ?_
  rcases hline : integerValue? line.text with _ | n
  · exact .bind .get fun _ _ => .bind (yields_seek _) fun _ _ => .bind (P := fun _ => False) (.throw _) nofun
  · exact .bind yields_close fun _ _ => yields_node rfl ⟨hname, by rw [hline]; rfl⟩

private theorem yields_ofKeyword (k : Keyword) : Yields ts (Directive.IsMadeOf ts k) (ofKeyword k) := by
  cases k with
  | define => exact yields_define
  | undef => exact yields_nameDirective _ (fun _ => rfl) fun _ ht => ht
  | ifdef => exact yields_nameDirective _ (fun _ => rfl) fun _ ht => ht
  | ifndef => exact yields_nameDirective _ (fun _ => rfl) fun _ ht => ht
  | otherwise => exact yields_bareDirective _ rfl trivial
  | endif => exact yields_bareDirective _ rfl trivial
  | includeFile => exact yields_pathDirective _ (fun _ => rfl) fun _ ht => ht
  | includeLib => exact yields_pathDirective _ (fun _ => rfl) fun _ ht => ht
  | error => exact yields_messageDirective _ (fun _ => rfl) fun _ => trivial
  | warning => exact yields_messageDirective _ (fun _ => rfl) fun _ => trivial
  | file => exact yields_file

private theorem yields_diagnosed (text : Text) {p : Parser Directive} {P : Directive → Prop} (hp : Yields ts P p) :
    Yields ts P (diagnosed text p) := by
  intro c d c' hc h
  unfold diagnosed at h
  split at h
  · cases h
  · exact hp c d c' hc h

/-- A definition names one of its tokens, and its body is made of its tokens or is the atom `true` at the name. -/
theorem yields_definition :
    Yields ts (fun (name, _, body) => name ∈ ts ∧
      (body ⊆ ts ∨ body = [{ kind := .atom, text := "true", position := name.position }])) definition := by
  refine .bind (yields_ofClass _) fun name hname => .bind .get fun c _ => ?_
  have hrest : ∀ params : Option (List Token), Yields ts (fun (name, _, body) => name ∈ ts ∧
      (body ⊆ ts ∨ body = [{ kind := .atom, text := "true", position := name.position }])) (do
        let c ← get
        if c.atEnd then return (name, params, [{ kind := .atom, text := "true", position := name.position }])
        else
          let _ ← exactly (.of .operator) "="
          return (name, params, (← get).rest)) := by
    intro params
    refine .bind .get fun c _ => .ite (.pure ⟨hname, .inr rfl⟩) ?_
    refine .bind (yields_exactly _ _) fun _ _ => .bind .get fun c' hc' => .pure ⟨hname, .inl ?_⟩
    rw [← hc']
    exact List.drop_subset _ _
  exact .ite (.bind (P := fun _ => True) (yields_paramList.map fun _ _ => trivial) fun params _ => hrest params)
    (.bind (P := fun _ => True) (.pure trivial) fun params _ => hrest params)

end Parser

/-- A directive that is parsed is made of its tokens, as its second token asks. -/
theorem Directive.parse_yields {tokens : List Token} {d : Directive} (h : parse tokens = .ok d) :
    ∃ t ∈ tokens[1]?, ∃ k ∈ Keyword.ofText? t.text, d.IsMadeOf tokens k := by
  unfold parse at h
  split at h
  · next d' c hd =>
    cases h
    obtain ⟨hyphen, c₁, hhyphen, hrest⟩ := Parser.bind_eq_ok hd
    cases Parser.exactly_eq_ok hhyphen
    obtain ⟨t, c₂, hcurrent, hkeyword⟩ := Parser.bind_eq_ok hrest
    obtain ⟨ht, rfl⟩ := Parser.current_eq_ok hcurrent
    have ht : tokens[1]? = some t := (Cursor.tokenAt?_natCast ⟨tokens, 1⟩ 1).symm.trans ht
    dsimp only at hkeyword
    rcases hk : Keyword.ofText? t.text with _ | k <;> rw [hk] at hkeyword
    · cases hkeyword
    · exact ⟨t, ht, k, hk, (Parser.yields_diagnosed _ (Parser.yields_ofKeyword k) _ _ _ rfl hkeyword).2⟩
  · cases h

/-- The body of a macro that a text defines is made of the tokens of the text, or is the atom `true` at the name. -/
theorem Macro.ofDefinition_yields {text : Text} {m : Macro} (h : ofDefinition text = .ok m) :
    m.body ⊆ (Lexing.ofText text).tokens ∨
      ∃ name ∈ (Lexing.ofText text).tokens, m.body = [{ kind := .atom, text := "true", position := name.position }] := by
  unfold ofDefinition at h
  dsimp only at h
  split at h
  · split at h <;> cases h
  · cases h
  · split at h
    · next name params body c hparse =>
      obtain ⟨-, hname, hbody⟩ := Parser.yields_definition _ _ _ rfl hparse
      have hmake : make name params body = .ok m := by
        rcases hmake : make name params body with e | m' <;> rw [hmake] at h <;> cases h
        rfl
      rw [body_of_make hmake]
      exact hbody.imp_right fun h => ⟨name, hname, h⟩
    · cases h
    · cases h

end ErlangMacros
