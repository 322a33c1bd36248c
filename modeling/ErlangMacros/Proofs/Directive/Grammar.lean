import ErlangMacros.Proofs.Directive.Language

/-!
# The grammar of directives

`Directive.Written` says how an action is written behind the keyword of a directive.  The parser of a keyword reads this
language and nothing else (`Parser.reads_ofKeyword`).  The heads of a definition and of a message are matched from the
front, but their ends are found by counting from the end of the tokens.  Where only the last token is a full stop, this
makes no difference.
-/

namespace ErlangMacros

namespace Parser

variable {α : Type} {ts : List Token}

/-! ### Parameter lists -/

/-- The tokens of a parameter list behind its opening parenthesis, and the parameters. -/
inductive ParamTokens : List Token → List Token → Prop where
  | last {param closing : Token} (kind_eq : param.kind = .var) (isClosing : closing.isSymbol ")" = true) :
      ParamTokens [param, closing] [param]
  | cons {param comma : Token} {ts params : List Token} (kind_eq : param.kind = .var)
      (isComma : comma.isSymbol "," = true) (tail : ParamTokens ts params) :
      ParamTokens (param :: comma :: ts) (param :: params)

/-- The tokens of a parameter list, and the parameters, which are distinct. -/
inductive ParamList : List Token → List Token → Prop where
  | empty {opening closing : Token} (isOpening : opening.isSymbol "(" = true) (isClosing : closing.isSymbol ")" = true) :
      ParamList [opening, closing] []
  | cons {opening : Token} {ts params : List Token} (isOpening : opening.isSymbol "(" = true)
      (tail : ParamTokens ts params) (nodup : (params.map (·.text)).Nodup) : ParamList (opening :: ts) params

/-- A parameter is new if and only if it can be added to distinct ones. -/
theorem nodup_append_iff {seen : List Token} {param : Token} (hseen : (seen.map (·.text)).Nodup) :
    ((seen ++ [param]).map (·.text)).Nodup ↔ ¬ seen.any (·.text = param.text) = true := by
  rw [List.map_append, List.nodup_append]
  simp [hseen]

private theorem reads_moreParams (hreadable : ∀ t ∈ ts, t.IsReadable) {seen : List Token}
    (hseen : (seen.map (·.text)).Nodup) (bound : Nat) :
    Reads ts (fun used params _ => ∃ new, params = seen ++ new ∧ ParamTokens used new ∧
      (params.map (·.text)).Nodup ∧ new.length ≤ bound) (moreParams seen bound) := by
  induction bound generalizing seen with
  | zero =>
    refine (Reads.reject _).congr fun before used params rest _ => ?_
    constructor
    · exact False.elim
    · rintro ⟨new, -, hnew, -, hlength⟩
      cases hnew <;> simp at hlength
  | succ bound ih =>
    have hclosing : Reads ts (skipped fun t => t.isSymbol ")" = true) (punctuator ")") :=
      reads_punctuator hreadable (by decide)
    refine Reads.congr ((reads_ofKind .var).bind fun param => Reads.guard (by rintro c a c' ⟨⟩) fun hno =>
      reads_choice (fun _ _ => ih ((nodup_append_iff hseen).2 hno)) fun _ =>
        hclosing.bind fun _ => Reads.pure (seen ++ [param])) fun before used params rest _ => ?_
    constructor
    · rintro ⟨_, _, param, rfl, ⟨rfl, hkind⟩, hno, ⟨comma, back, rfl, hcomma, new, rfl, hnew, hnodup, hlength⟩ |
        ⟨_, -, -, _, _, -, rfl, ⟨closing, rfl, hclosing⟩, rfl, rfl⟩⟩
      · refine ⟨param :: new, by simp, .cons hkind hcomma hnew, hnodup, ?_⟩
        rw [List.length_cons]
        omega
      · exact ⟨[param], rfl, .last hkind hclosing,
          (nodup_append_iff hseen).2 hno, by simp⟩
    · rintro ⟨new, rfl, hnew, hnodup, hlength⟩
      cases hnew with
      | @last param closing hkind hclosing =>
        have hcomma : ¬ closing.isSymbol "," = true := by
          rw [Token.isSymbol_eq_false hclosing (by decide)]
          exact Bool.false_ne_true
        exact ⟨[param], [closing], param, rfl, ⟨rfl, hkind⟩,
          (nodup_append_iff hseen).1 hnodup, .inr ⟨closing, rfl, hcomma, [closing], [], (), rfl, ⟨closing, rfl, hclosing⟩,
            rfl, rfl⟩⟩
      | @cons param comma back new hkind hcomma hback =>
        have hparams : seen ++ param :: new = seen ++ [param] ++ new := by simp
        rw [hparams] at hnodup ⊢
        have hparam : ((seen ++ [param]).map (·.text)).Nodup := by
          rw [List.map_append] at hnodup
          exact (List.nodup_append.1 hnodup).1
        rw [List.length_cons] at hlength
        exact ⟨[param], comma :: back, param, rfl, ⟨rfl, hkind⟩,
          (nodup_append_iff hseen).1 hparam, .inl ⟨comma, back, rfl, hcomma, new, rfl, hback, hnodup, by omega⟩⟩

theorem ParamTokens.length_le {ts params : List Token} (h : ParamTokens ts params) : params.length ≤ ts.length := by
  induction h with
  | last => simp
  | cons _ _ _ ih =>
    rw [List.length_cons, List.length_cons, List.length_cons]
    omega

theorem ParamTokens.cases_of_mem {ts params : List Token} (h : ParamTokens ts params) {t : Token} (ht : t ∈ ts) :
    t.kind = .var ∨ ∃ text ∈ [("(" : Text), ",", ")"], t.isSymbol text = true := by
  induction h with
  | last hkind hclosing =>
    rw [List.mem_pair] at ht
    rcases ht with rfl | rfl
    · exact .inl hkind
    · exact .inr ⟨")", by simp, hclosing⟩
  | cons hkind hcomma _ ih =>
    rw [List.mem_cons, List.mem_cons] at ht
    rcases ht with rfl | rfl | ht
    · exact .inl hkind
    · exact .inr ⟨",", by simp, hcomma⟩
    · exact ih ht

theorem ParamList.exists_opening {ts params : List Token} (h : ParamList ts params) :
    ∃ opening tail, ts = opening :: tail ∧ opening.isSymbol "(" = true := by
  cases h with
  | empty hopening _ => exact ⟨_, _, rfl, hopening⟩
  | cons hopening _ _ => exact ⟨_, _, rfl, hopening⟩

/-! Tokens with the same lexemes are lists of the same parameters. -/

theorem ParamTokens.of_map_lexeme {params us : List Token} (h : ParamTokens ts params)
    (hus : us.map Token.lexeme = ts.map Token.lexeme) :
    ∃ params', ParamTokens us params' ∧ params'.map Token.lexeme = params.map Token.lexeme := by
  induction h generalizing us with
  | last hkind hclosing =>
    obtain ⟨param', _, rfl, hparam, htail⟩ := List.map_eq_cons_iff.1 hus
    obtain ⟨closing', _, rfl, hclosing', hnil⟩ := List.map_eq_cons_iff.1 htail
    obtain rfl := List.map_eq_nil_iff.1 hnil
    refine ⟨[param'], .last ((congrArg Prod.fst hparam).trans hkind) ?_, by simp [hparam]⟩
    rw [Token.isSymbol_congr hclosing', hclosing]
  | cons hkind hcomma _ ih =>
    obtain ⟨param', _, rfl, hparam, htail⟩ := List.map_eq_cons_iff.1 hus
    obtain ⟨comma', us, rfl, hcomma', htail⟩ := List.map_eq_cons_iff.1 htail
    obtain ⟨params', hparams', hlexemes⟩ := ih htail
    refine ⟨param' :: params', .cons ((congrArg Prod.fst hparam).trans hkind) ?_ hparams', by simp [hparam, hlexemes]⟩
    rw [Token.isSymbol_congr hcomma', hcomma]

theorem ParamList.of_map_lexeme {params us : List Token} (h : ParamList ts params)
    (hus : us.map Token.lexeme = ts.map Token.lexeme) :
    ∃ params', ParamList us params' ∧ params'.map Token.lexeme = params.map Token.lexeme := by
  cases h with
  | empty hopening hclosing =>
    obtain ⟨opening', _, rfl, hopening', htail⟩ := List.map_eq_cons_iff.1 hus
    obtain ⟨closing', _, rfl, hclosing', hnil⟩ := List.map_eq_cons_iff.1 htail
    obtain rfl := List.map_eq_nil_iff.1 hnil
    rw [← Token.isSymbol_congr hopening'] at hopening
    rw [← Token.isSymbol_congr hclosing'] at hclosing
    exact ⟨[], .empty hopening hclosing, rfl⟩
  | cons hopening htail hnodup =>
    obtain ⟨opening', us, rfl, hopening', hus⟩ := List.map_eq_cons_iff.1 hus
    obtain ⟨params', hparams', hlexemes⟩ := htail.of_map_lexeme hus
    rw [← Token.isSymbol_congr hopening'] at hopening
    rw [← Token.map_text_of_map_lexeme hlexemes] at hnodup
    exact ⟨params', .cons hopening hparams' hnodup, hlexemes⟩

/-- Match a parameter list. -/
theorem reads_paramList (hreadable : ∀ t ∈ ts, t.IsReadable) :
    Reads ts (fun used params _ => ParamList used params) paramList := by
  have hopening : Reads ts (skipped fun t => t.isSymbol "(" = true) (punctuator "(") :=
    reads_punctuator hreadable (by decide)
  have hmore : Reads ts (fun used params _ => ParamTokens used params ∧ (params.map (·.text)).Nodup)
      (do moreParams [] ((← get).tokens.length + 1)) := by
    have hnil : (([] : List Token).map (·.text)).Nodup := List.nodup_nil
    have hread : Reads ts _ (do moreParams [] ((← get).tokens.length + 1)) :=
      reads_moreParams hreadable hnil (ts.length + 1)
    refine hread.congr fun before used params rest hts => ?_
    constructor
    · rintro ⟨new, rfl, hnew, hnodup, -⟩
      exact ⟨hnew, hnodup⟩
    · rintro ⟨hnew, hnodup⟩
      have hlength := hnew.length_le
      have htotal := congrArg List.length hts
      rw [List.length_append, List.length_append] at htotal
      exact ⟨params, rfl, hnew, hnodup, by omega⟩
  refine (hopening.bind fun _ => reads_choice (P := fun t : Token => t.isSymbol ")" = true) (fun _ _ => Reads.pure [])
    fun _ => hmore).congr fun before used params rest _ => ?_
  constructor
  · rintro ⟨_, _, _, rfl, ⟨opening, rfl, hopening⟩, ⟨closing, _, rfl, hclosing, rfl, rfl⟩ | ⟨_, -, -, hparams, hnodup⟩⟩
    · exact .empty hopening hclosing
    · exact .cons hopening hparams hnodup
  · intro h
    cases h with
    | @empty opening closing hopening hclosing =>
      exact ⟨[opening], [closing], (), rfl, ⟨opening, rfl, hopening⟩, .inl ⟨closing, [], rfl, hclosing, rfl, rfl⟩⟩
    | @cons opening tail _ hopening hparams hnodup =>
      refine ⟨[opening], tail, (), rfl, ⟨opening, rfl, hopening⟩, .inr ?_⟩
      -- the first parameter is no parenthesis
      obtain ⟨param, back, rfl, hkind⟩ : ∃ param back, tail = param :: back ∧ param.kind = .var := by
        cases hparams with
        | last hkind _ => exact ⟨_, _, rfl, hkind⟩
        | cons hkind _ _ => exact ⟨_, _, rfl, hkind⟩
      exact ⟨param, rfl, by simp [Token.isSymbol, Kind.isSymbol, hkind], hparams, hnodup⟩

end Parser

/-! ### Directives -/

namespace Directive

/-- The name of a macro. -/
def IsName (t : Token) : Prop :=
  t.kind = .atom ∨ t.kind = .var

/-- Tokens in parentheses, and the full stop behind them. -/
inductive Enclosed (inner : List Token) : List Token → Prop where
  | mk {opening closing stop : Token} (isOpening : opening.isSymbol "(" = true) (isClosing : closing.isSymbol ")" = true)
      (isStop : stop.isSymbol "." = true) : Enclosed inner (opening :: (inner ++ [closing, stop]))

/-- A full stop stands at the end. -/
theorem Enclosed.exists_stop {inner ts : List Token} (h : Enclosed inner ts) :
    ∃ front stop, ts = front ++ [stop] ∧ stop.isSymbol "." = true := by
  obtain @⟨opening, closing, stop, -, -, hstop⟩ := h
  exact ⟨opening :: (inner ++ [closing]), stop, by simp, hstop⟩

/-- The tokens between the name of a macro and the comma before its body. -/
inductive Params : List Token → Option (List Token) → Prop where
  | none : Params [] none
  | some {ts params : List Token} (isList : Parser.ParamList ts params) : Params ts (some params)

theorem Params.of_map_lexeme {ts us : List Token} {params : Option (List Token)} (h : Params ts params)
    (hus : us.map Token.lexeme = ts.map Token.lexeme) :
    ∃ params', Params us params' ∧ params'.map (·.map Token.lexeme) = params.map (·.map Token.lexeme) := by
  cases h with
  | none =>
    obtain rfl := List.map_eq_nil_iff.1 hus
    exact ⟨_, .none, rfl⟩
  | some hlist =>
    obtain ⟨params', hparams', hlexemes⟩ := hlist.of_map_lexeme hus
    exact ⟨_, .some hparams', congrArg Option.some hlexemes⟩

/-- Between the name and the comma stand variables, brackets and commas. -/
theorem Params.cases_of_mem {ts : List Token} {params : Option (List Token)} (h : Params ts params) {t : Token}
    (ht : t ∈ ts) : t.kind = .var ∨ ∃ text ∈ [("(" : Text), ",", ")"], t.isSymbol text = true := by
  cases h with
  | none => cases ht
  | some hlist =>
    cases hlist with
    | empty hopening hclosing =>
      rw [List.mem_pair] at ht
      rcases ht with rfl | rfl
      · exact .inr ⟨"(", by simp, hopening⟩
      · exact .inr ⟨")", by simp, hclosing⟩
    | cons hopening htail _ =>
      rcases List.mem_cons.1 ht with rfl | ht
      · exact .inr ⟨"(", by simp, hopening⟩
      · exact htail.cases_of_mem ht

/-- A term tells a message: a single string its value, and any other term its spelling. -/
inductive Tells : List Token → Text → Prop where
  | value {t : Token} {message : Text} (kind_eq : t.kind = .string) (value_eq : t.value = .ok message) :
      Tells [t] message
  | spelling {term : List Token} (no_string : ∀ t, term = [t] → t.kind ≠ .string) : Tells term (spacedTexts term)

/-- How what a directive asks for is written behind its keyword. -/
inductive Written : Action → List Token → Prop where
  | define {name comma : Token} {ps body ts : List Token} {params : Option (List Token)} (isName : IsName name)
      (isParams : Params ps params) (isComma : comma.isSymbol "," = true)
      (enclosed : Enclosed (name :: (ps ++ comma :: body)) ts) : Written (.define name params body) ts
  | undef {name : Token} {ts : List Token} (isName : IsName name) (enclosed : Enclosed [name] ts) :
      Written (.undef name) ts
  | ifdef {name : Token} {ts : List Token} (isName : IsName name) (enclosed : Enclosed [name] ts) :
      Written (.ifdef name) ts
  | ifndef {name : Token} {ts : List Token} (isName : IsName name) (enclosed : Enclosed [name] ts) :
      Written (.ifndef name) ts
  | otherwise {stop : Token} (isStop : stop.isSymbol "." = true) : Written .otherwise [stop]
  | endif {stop : Token} (isStop : stop.isSymbol "." = true) : Written .endif [stop]
  | includeFile {path : Token} {ts : List Token} (kind_eq : path.kind = .string) (enclosed : Enclosed [path] ts) :
      Written (.includeFile path) ts
  | includeLib {path : Token} {ts : List Token} (kind_eq : path.kind = .string) (enclosed : Enclosed [path] ts) :
      Written (.includeLib path) ts
  | error {term ts : List Token} {message : Text} (ne_nil : term ≠ []) (tells : Tells term message)
      (enclosed : Enclosed term ts) : Written (.error message) ts
  | warning {term ts : List Token} {message : Text} (ne_nil : term ≠ []) (tells : Tells term message)
      (enclosed : Enclosed term ts) : Written (.warning message) ts
  | file {name comma line : Token} {ts : List Token} (name_kind_eq : name.kind = .string)
      (isComma : comma.isSymbol "," = true) (line_kind_eq : line.kind = .integer)
      (hasValue : (integerValue? line.text).isSome = true) (enclosed : Enclosed [name, comma, line] ts) :
      Written (.file name line) ts

private theorem tells_iff {term : List Token} {message : Text} :
    Tells term message ↔ Parser.termMessage term = .ok message := by
  constructor
  · rintro (⟨hkind, hvalue⟩ | hno)
    · rw [Parser.termMessage, if_pos hkind, hvalue]
    · unfold Parser.termMessage
      split
      · next t =>
        rw [if_neg (hno t rfl)]
        simp [spacedTexts]
      · rfl
  · intro h
    unfold Parser.termMessage at h
    split at h
    · next t =>
      split at h
      · next hkind => exact .value hkind h
      · next hkind =>
        cases h
        have htext : spacedTexts [t] = t.text := by simp [spacedTexts]
        rw [← htext]
        refine .spelling ?_
        rintro _ ⟨⟩
        exact hkind
    · next hno =>
      cases h
      exact .spelling fun t ht => absurd ht (hno t)

end Directive

namespace Parser

open Directive

theorem reads_macroName : Reads ts (single IsName) macroName :=
  (reads_ofClass _).congr_single fun t => by simp [TokenClass.contains, IsName]

private theorem reads_node (action : Action) : Reads ts (fun used d _ => used = [] ∧ d = ⟨ts, action⟩) (node action) :=
  @Reads.pure _ ts (⟨ts, action⟩ : Directive)

/-- The language of directives with the given keyword. -/
def directives (ts : List Token) (text : Text) (W : Action → List Token → Prop) : Language Directive :=
  fun used d _ => ∃ word back action, used = word :: back ∧ word.lexeme = (.atom, text) ∧ W action back ∧ d = ⟨ts, action⟩

/-- If only the last token is a full stop, directives that end with one need not be said to end at the last token. -/
theorem Reads.of_stopsLast {text : Text} {W : Action → List Token → Prop} {p : Parser Directive}
    (hp : Reads ts (fun used d rest => rest = [] ∧ directives ts text W used d rest) p) (hlast : Token.StopsLast ts)
    (hW : ∀ a back, W a back → ∃ front stop, back = front ++ [stop] ∧ stop.isSymbol "." = true) :
    Reads ts (directives ts text W) p := by
  refine hp.congr fun before used d rest hts => and_iff_right_of_imp ?_
  rintro ⟨word, back, action, rfl, -, hback, -⟩
  obtain ⟨front, stop, rfl, hstop⟩ := hW action back hback
  exact hlast.eq_nil hstop (before ++ word :: front) rest (by rw [← hts]; simp)

/-- Match a directive with one token in parentheses. -/
theorem reads_item (hreadable : ∀ t ∈ ts, t.IsReadable) (text : Text) {P : Token → Prop} {p : Parser Token}
    (hp : Reads ts (single P) p) (action : Token → Action) :
    Reads ts (directives ts text fun a back => ∃ t, P t ∧ Enclosed [t] back ∧ a = action t)
      (do
        keyword text
        punctuator "("
        let t ← p
        close
        node (action t)) := by
  have hopening : Reads ts (skipped fun t => t.isSymbol "(" = true) (punctuator "(") :=
    reads_punctuator hreadable (by decide)
  refine ((reads_keyword text).bind fun _ => hopening.bind fun _ => hp.bind fun t =>
    (reads_close hreadable).bind fun _ => reads_node (action t)).congr fun before used d rest _ => ?_
  constructor
  · rintro ⟨_, _, _, rfl, ⟨word, rfl, hword⟩, _, _, _, rfl, ⟨opening, rfl, hopening⟩, _, _, t, rfl, ⟨rfl, ht⟩, _, _, _, rfl,
      ⟨closing, stop, rfl, hclosing, hstop⟩, rfl, rfl⟩
    exact ⟨word, _, _, rfl, hword, ⟨t, ht, .mk hopening hclosing hstop, rfl⟩, rfl⟩
  · rintro ⟨word, _, _, rfl, hword, ⟨t, ht, ⟨hopening, hclosing, hstop⟩, rfl⟩, rfl⟩
    exact ⟨[word], _, (), rfl, ⟨word, rfl, hword⟩, [_], _, (), rfl, ⟨_, rfl, hopening⟩, [t], _, t, rfl, ⟨rfl, ht⟩, [_, _],
      [], (), rfl, ⟨_, _, rfl, hclosing, hstop⟩, rfl, rfl⟩

/-- Match a directive that is only a keyword. -/
theorem reads_bareDirective (hreadable : ∀ t ∈ ts, t.IsReadable) (text : Text) (action : Action) :
    Reads ts (directives ts text fun a back => ∃ stop, back = [stop] ∧ stop.isSymbol "." = true ∧ a = action)
      (bareDirective text action) := by
  have hstop : Reads ts (skipped fun t => t.isSymbol "." = true) (punctuator ".") :=
    reads_punctuator hreadable (by decide)
  refine ((reads_keyword text).bind fun _ => hstop.bind fun _ => reads_node action).congr fun before used d rest _ => ?_
  constructor
  · rintro ⟨_, _, _, rfl, ⟨word, rfl, hword⟩, _, _, _, rfl, ⟨stop, rfl, hstop⟩, rfl, rfl⟩
    exact ⟨word, _, _, rfl, hword, ⟨stop, rfl, hstop, rfl⟩, rfl⟩
  · rintro ⟨word, _, _, rfl, hword, ⟨stop, rfl, hstop, rfl⟩, rfl⟩
    exact ⟨[word], _, (), rfl, ⟨word, rfl, hword⟩, [stop], [], (), rfl, ⟨stop, rfl, hstop⟩, rfl, rfl⟩

/-- Match the term of a message and the end of the directive, which is the end of the tokens. -/
theorem reads_messageDirective (hreadable : ∀ t ∈ ts, t.IsReadable) (text : Text) (action : Text → Action) :
    Reads ts
      (fun used d rest => rest = [] ∧ directives ts text (fun a back => ∃ term message, term ≠ [] ∧ Tells term message ∧
        Enclosed term back ∧ a = action message) used d rest)
      (messageDirective text action) := by
  have hopening : Reads ts (skipped fun t => t.isSymbol "(" = true) (punctuator "(") :=
    reads_punctuator hreadable (by decide)
  have hnode (term : List Token) {p : Parser Directive}
      (hok : ∀ message, termMessage term = .ok message → p = node (action message))
      (herror : ∀ e, termMessage term = .error e → p = throw (.fault (.escape e))) :
      Reads ts (fun used d _ => used = [] ∧ ∃ message, termMessage term = .ok message ∧ d = ⟨ts, action message⟩) p := by
    rcases hterm : termMessage term with e | message
    · rw [herror e hterm]
      exact (Reads.never (by rintro c a c' ⟨⟩)).congr fun _ _ _ _ _ => by simp
    · rw [hok message hterm]
      exact (reads_node (action message)).congr fun _ _ _ _ _ => by simp
  have hread : Reads ts _ (messageDirective text action) :=
    (reads_keyword text).bind fun _ => hopening.bind fun _ => (reads_untilClose hreadable 1 .missingTerm).bind fun term =>
      hnode term (fun message h => by rw [h]) fun e h => by rw [h]
  refine hread.congr fun before used d rest _ => ?_
  constructor
  · rintro ⟨_, _, _, rfl, ⟨word, rfl, hword⟩, _, _, _, rfl, ⟨opening, rfl, hopening⟩, _, _, term, rfl,
      ⟨hrest, hleast, closing, stop, rfl, hclosing, hstop⟩, rfl, message, hmessage, rfl⟩
    have hne : term ≠ [] := List.ne_nil_of_length_pos hleast
    refine ⟨hrest, word, _, _, rfl, hword, ⟨term, message, hne, tells_iff.2 hmessage, ?_, rfl⟩, rfl⟩
    rw [List.append_nil]
    exact .mk hopening hclosing hstop
  · rintro ⟨rfl, word, _, _, rfl, hword, ⟨term, message, hne, htells, henclosed, rfl⟩, rfl⟩
    obtain @⟨opening, closing, stop, hopening, hclosing, hstop⟩ := henclosed
    exact ⟨[word], _, (), rfl, ⟨word, rfl, hword⟩, [opening], _, (), rfl, ⟨opening, rfl, hopening⟩, _, [], term,
      (List.append_nil _).symm, ⟨rfl, List.length_pos_iff.2 hne, closing, stop, rfl, hclosing, hstop⟩, rfl, message,
      tells_iff.1 htells, rfl⟩

/-- Match a directive that sets the reported file name and line. -/
theorem reads_file (hreadable : ∀ t ∈ ts, t.IsReadable) :
    Reads ts
      (directives ts "file" fun a back => ∃ name comma line, name.kind = .string ∧ comma.isSymbol "," = true ∧
        line.kind = .integer ∧ (integerValue? line.text).isSome = true ∧ Enclosed [name, comma, line] back ∧
        a = .file name line)
      file := by
  have hopening : Reads ts (skipped fun t => t.isSymbol "(" = true) (punctuator "(") :=
    reads_punctuator hreadable (by decide)
  have hcomma : Reads ts (skipped fun t => t.isSymbol "," = true) (punctuator ",") :=
    reads_punctuator hreadable (by decide)
  refine Reads.congr ((reads_keyword "file").bind fun _ => hopening.bind fun _ => (reads_ofKind .string).bind fun name =>
    hcomma.bind fun _ => (reads_ofKind .integer).bind fun line => Reads.guard (by rintro c a c' ⟨⟩) fun _ =>
      (reads_close hreadable).bind fun _ => reads_node (.file name line)) fun before used d rest _ => ?_
  constructor
  · rintro ⟨_, _, _, rfl, ⟨word, rfl, hword⟩, _, _, _, rfl, ⟨opening, rfl, hopening⟩, _, _, name, rfl, ⟨rfl, hname⟩,
      _, _, _, rfl, ⟨comma, rfl, hcomma⟩, _, _, line, rfl, ⟨rfl, hline⟩, hvalue, _, _, _, rfl,
      ⟨closing, stop, rfl, hclosing, hstop⟩, rfl, rfl⟩
    refine ⟨word, _, _, rfl, hword, ⟨name, comma, line, hname, hcomma, hline, ?_, .mk hopening hclosing hstop, rfl⟩, rfl⟩
    simpa [Option.isSome_iff_ne_none] using hvalue
  · rintro ⟨word, _, _, rfl, hword, ⟨name, comma, line, hname, hcomma, hline, hvalue, ⟨hopening, hclosing, hstop⟩, rfl⟩,
      rfl⟩
    refine ⟨[word], _, (), rfl, ⟨word, rfl, hword⟩, [_], _, (), rfl, ⟨_, rfl, hopening⟩, [name], _, name, rfl, ⟨rfl, hname⟩,
      [comma], _, (), rfl, ⟨comma, rfl, hcomma⟩, [line], _, line, rfl, ⟨rfl, hline⟩, ?_, [_, _], [], (), rfl,
      ⟨_, _, rfl, hclosing, hstop⟩, rfl, rfl⟩
    simpa [Option.isSome_iff_ne_none] using hvalue

/-- Match the parameters of a definition, if there are some, and what stands behind the comma. -/
theorem reads_params (hreadable : ∀ t ∈ ts, t.IsReadable) {M : Option (List Token) → Language α}
    {k : Option (List Token) → Parser α} (hk : ∀ params, Reads ts (M params) (k params)) :
    Reads ts
      (fun used a rest => ∃ ps params comma back, used = ps ++ comma :: back ∧ Params ps params ∧
        comma.isSymbol "," = true ∧ M params back a rest)
      (do
        let params ← if (← current).isSymbol "(" then some <$> paramList else pure none
        punctuator ","
        k params) := by
  have hcomma : Reads ts (skipped fun t => t.isSymbol "," = true) (punctuator ",") :=
    reads_punctuator hreadable (by decide)
  have hrest (params : Option (List Token)) := hcomma.bind fun _ => hk params
  have hchoice (t : Token) := Reads.ite (b := t.isSymbol "(" = true)
    (((reads_paramList hreadable).map some).bind hrest) ((Reads.pure none).bind hrest)
  refine (reads_current.bind hchoice).congr fun before used a rest _ => ?_
  constructor
  · rintro ⟨_, _, t, rfl, ⟨rfl, -⟩,
      ⟨-, ps, _, _, rfl, ⟨params, hparams, rfl⟩, _, back, _, rfl, ⟨comma, rfl, hcomma⟩, hM⟩ |
      ⟨-, _, _, _, rfl, ⟨rfl, rfl⟩, _, back, _, rfl, ⟨comma, rfl, hcomma⟩, hM⟩⟩
    · exact ⟨ps, _, comma, back, rfl, .some hparams, hcomma, hM⟩
    · exact ⟨[], _, comma, back, rfl, .none, hcomma, hM⟩
  · rintro ⟨ps, _, comma, back, rfl, hparams, hcomma, hM⟩
    cases hparams with
    | none =>
      have hno : ¬ comma.isSymbol "(" = true := by
        rw [Token.isSymbol_eq_false hcomma (by decide)]
        exact Bool.false_ne_true
      exact ⟨[], _, comma, rfl, ⟨rfl, rfl⟩, .inr ⟨hno, [], _, none, rfl, ⟨rfl, rfl⟩, [comma], back, (), rfl,
        ⟨comma, rfl, hcomma⟩, hM⟩⟩
    | @some ps params hlist =>
      obtain ⟨opening, tail, rfl, hopening⟩ := hlist.exists_opening
      exact ⟨[], _, opening, rfl, ⟨rfl, rfl⟩, .inl ⟨hopening, opening :: tail, _, some params, rfl, ⟨params, hlist, rfl⟩,
        [comma], back, (), rfl, ⟨comma, rfl, hcomma⟩, hM⟩⟩

/-- Match a definition, which ends at the end of the tokens. -/
theorem reads_define (hreadable : ∀ t ∈ ts, t.IsReadable) :
    Reads ts
      (fun used d rest => rest = [] ∧ directives ts "define" (fun a back => ∃ name ps params comma body, IsName name ∧
        Params ps params ∧ comma.isSymbol "," = true ∧ Enclosed (name :: (ps ++ comma :: body)) back ∧
        a = .define name params body) used d rest)
      define := by
  have hopening : Reads ts (skipped fun t => t.isSymbol "(" = true) (punctuator "(") :=
    reads_punctuator hreadable (by decide)
  refine Reads.congr ((reads_keyword "define").bind fun _ => hopening.bind fun _ => reads_macroName.bind fun name =>
    reads_params hreadable fun params => (reads_untilClose hreadable 0 .missingClose).bind fun body =>
      reads_node (.define name params body)) fun before used d rest _ => ?_
  constructor
  · rintro ⟨_, _, _, rfl, ⟨word, rfl, hword⟩, _, _, _, rfl, ⟨opening, rfl, hopening⟩, _, _, name, rfl, ⟨rfl, hname⟩, ps,
      params, comma, _, rfl, hparams, hcomma, _, _, body, rfl, ⟨hrest, -, closing, stop, rfl, hclosing, hstop⟩, rfl, rfl⟩
    refine ⟨by simpa using hrest, word, _, _, rfl, hword,
      ⟨name, ps, params, comma, body, hname, hparams, hcomma, ?_, rfl⟩, rfl⟩
    simpa using @Enclosed.mk (name :: (ps ++ comma :: body)) opening closing stop hopening hclosing hstop
  · rintro ⟨rfl, word, _, _, rfl, hword, ⟨name, ps, params, comma, body, hname, hparams, hcomma, henclosed, rfl⟩, rfl⟩
    obtain @⟨opening, closing, stop, hopening, hclosing, hstop⟩ := henclosed
    exact ⟨[word], _, (), rfl, ⟨word, rfl, hword⟩, [opening], _, (), rfl, ⟨opening, rfl, hopening⟩, [name],
      ps ++ comma :: (body ++ [closing, stop]), name, by simp, ⟨rfl, hname⟩, ps, params, comma, _, rfl, hparams, hcomma,
      _, [], body, (List.append_nil _).symm, ⟨rfl, Nat.zero_le _, closing, stop, rfl, hclosing, hstop⟩, rfl, rfl⟩

private theorem Reads.congr_written {k : Keyword} {W : Action → List Token → Prop} {p : Parser Directive}
    (hp : Reads ts (directives ts k.text W) p) (hW : ∀ a back, W a back → a.keyword = k ∧ Written a back)
    (hwritten : ∀ a back, Written a back → a.keyword = k → W a back) :
    Reads ts (directives ts k.text fun a back => a.keyword = k ∧ Written a back) p := by
  refine hp.congr fun _ _ _ _ _ => exists_congr fun _ => exists_congr fun back => exists_congr fun a => ?_
  have hsame : W a back ↔ a.keyword = k ∧ Written a back := ⟨hW a back, fun h => hwritten a back h.2 h.1⟩
  rw [hsame]

/-- The parser of a keyword reads what is written with this keyword. -/
theorem reads_ofKeyword (hreadable : ∀ t ∈ ts, t.IsReadable) (hlast : Token.StopsLast ts) (k : Keyword) :
    Reads ts (directives ts k.text fun a back => a.keyword = k ∧ Written a back) (ofKeyword k) := by
  cases k with
  | define =>
    refine ((reads_define hreadable).of_stopsLast hlast ?_).congr_written ?_ fun a back h hk => ?_
    · rintro _ _ ⟨_, _, _, _, _, -, -, -, henclosed, -⟩
      exact henclosed.exists_stop
    · rintro _ _ ⟨name, ps, params, comma, body, hname, hparams, hcomma, henclosed, rfl⟩
      exact ⟨rfl, .define hname hparams hcomma henclosed⟩
    · cases h with
      | define hname hparams hcomma henclosed => exact ⟨_, _, _, _, _, hname, hparams, hcomma, henclosed, rfl⟩
      | _ => cases hk
  | undef =>
    refine (reads_item hreadable "undef" reads_macroName .undef).congr_written ?_ fun a back h hk => ?_
    · rintro _ _ ⟨name, hname, henclosed, rfl⟩
      exact ⟨rfl, .undef hname henclosed⟩
    · cases h with
      | undef hname henclosed => exact ⟨_, hname, henclosed, rfl⟩
      | _ => cases hk
  | ifdef =>
    refine (reads_item hreadable "ifdef" reads_macroName .ifdef).congr_written ?_ fun a back h hk => ?_
    · rintro _ _ ⟨name, hname, henclosed, rfl⟩
      exact ⟨rfl, .ifdef hname henclosed⟩
    · cases h with
      | ifdef hname henclosed => exact ⟨_, hname, henclosed, rfl⟩
      | _ => cases hk
  | ifndef =>
    refine (reads_item hreadable "ifndef" reads_macroName .ifndef).congr_written ?_ fun a back h hk => ?_
    · rintro _ _ ⟨name, hname, henclosed, rfl⟩
      exact ⟨rfl, .ifndef hname henclosed⟩
    · cases h with
      | ifndef hname henclosed => exact ⟨_, hname, henclosed, rfl⟩
      | _ => cases hk
  | otherwise =>
    refine (reads_bareDirective hreadable "else" .otherwise).congr_written ?_ fun a back h hk => ?_
    · rintro _ _ ⟨stop, rfl, hstop, rfl⟩
      exact ⟨rfl, .otherwise hstop⟩
    · cases h with
      | otherwise hstop => exact ⟨_, rfl, hstop, rfl⟩
      | _ => cases hk
  | endif =>
    refine (reads_bareDirective hreadable "endif" .endif).congr_written ?_ fun a back h hk => ?_
    · rintro _ _ ⟨stop, rfl, hstop, rfl⟩
      exact ⟨rfl, .endif hstop⟩
    · cases h with
      | endif hstop => exact ⟨_, rfl, hstop, rfl⟩
      | _ => cases hk
  | includeFile =>
    refine (reads_item hreadable "include" (reads_ofKind .string) .includeFile).congr_written ?_ fun a back h hk => ?_
    · rintro _ _ ⟨path, hkind, henclosed, rfl⟩
      exact ⟨rfl, .includeFile hkind henclosed⟩
    · cases h with
      | includeFile hkind henclosed => exact ⟨_, hkind, henclosed, rfl⟩
      | _ => cases hk
  | includeLib =>
    refine (reads_item hreadable "include_lib" (reads_ofKind .string) .includeLib).congr_written ?_ fun a back h hk => ?_
    · rintro _ _ ⟨path, hkind, henclosed, rfl⟩
      exact ⟨rfl, .includeLib hkind henclosed⟩
    · cases h with
      | includeLib hkind henclosed => exact ⟨_, hkind, henclosed, rfl⟩
      | _ => cases hk
  | error =>
    refine ((reads_messageDirective hreadable "error" .error).of_stopsLast hlast ?_).congr_written ?_
      fun a back h hk => ?_
    · rintro _ _ ⟨_, _, -, -, henclosed, -⟩
      exact henclosed.exists_stop
    · rintro _ _ ⟨term, message, hne, htells, henclosed, rfl⟩
      exact ⟨rfl, .error hne htells henclosed⟩
    · cases h with
      | error hne htells henclosed => exact ⟨_, _, hne, htells, henclosed, rfl⟩
      | _ => cases hk
  | warning =>
    refine ((reads_messageDirective hreadable "warning" .warning).of_stopsLast hlast ?_).congr_written ?_
      fun a back h hk => ?_
    · rintro _ _ ⟨_, _, -, -, henclosed, -⟩
      exact henclosed.exists_stop
    · rintro _ _ ⟨term, message, hne, htells, henclosed, rfl⟩
      exact ⟨rfl, .warning hne htells henclosed⟩
    · cases h with
      | warning hne htells henclosed => exact ⟨_, _, hne, htells, henclosed, rfl⟩
      | _ => cases hk
  | file =>
    refine (reads_file hreadable).congr_written ?_ fun a back h hk => ?_
    · rintro _ _ ⟨name, comma, line, hname, hcomma, hline, hvalue, henclosed, rfl⟩
      exact ⟨rfl, .file hname hcomma hline hvalue henclosed⟩
    · cases h with
      | file hname hcomma hline hvalue henclosed =>
        exact ⟨_, _, _, hname, hcomma, hline, hvalue, henclosed, rfl⟩
      | _ => cases hk

end Parser

end ErlangMacros
