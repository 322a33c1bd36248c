import ErlangMacros.Proofs.Directive.Tokens
import ErlangMacros.Proofs.Token.Lexeme

/-!
# How conditionals are written

A conditional is opened by `-ifdef(N).` or `-ifndef(N).`, turned by `-else.` and closed by `-endif.`.  Tokens with these
lexemes are parsed as what they say, wherever they stand (`parse_name`, `parse_bare`).
-/

namespace ErlangMacros

namespace Parser

variable {α β : Type} {c c' : Cursor} {t : Token}

theorem bind_of_eq_ok {p : Parser α} {a : α} (h : p c = .ok a c') (k : α → Parser β) : (p >>= k) c = k a c' := by
  change EStateM.bind p k c = _
  rw [EStateM.bind, h]

theorem current_of_token? (h : c.token? = some t) : current c = .ok t c := by
  have hget : (get : Parser Cursor) c = .ok c c := rfl
  unfold current
  rw [bind_of_eq_ok hget, h]
  rfl

private theorem ofClass_of_token? {classes : List TokenClass} (h : c.token? = some t)
    (hclass : classes.any (·.contains t) = true) : ofClass classes c = .ok t { c with pos := c.pos + 1 } := by
  unfold ofClass
  rw [bind_of_eq_ok (current_of_token? h), if_pos hclass]
  rfl

private theorem exactly_of_token? {wanted : TokenClass} {text : Text} (h : c.token? = some t)
    (hclass : wanted.contains t = true) (htext : t.text = text) :
    exactly wanted text c = .ok t { c with pos := c.pos + 1 } := by
  unfold exactly
  rw [bind_of_eq_ok (current_of_token? h), if_pos (by simp [hclass, htext])]
  rfl

private theorem punctuator_of_token? {text : Text} (h : c.token? = some t) (ht : t.lexeme = (.punctuator, text)) :
    punctuator text c = .ok () { c with pos := c.pos + 1 } := by
  obtain ⟨hkind, htext⟩ := Prod.mk.inj ht
  unfold punctuator
  rw [bind_of_eq_ok (exactly_of_token? h (by simp [TokenClass.contains, hkind]) htext)]
  rfl

private theorem keyword_of_token? {text : Text} (h : c.token? = some t) (ht : t.lexeme = (.atom, text)) :
    keyword text c = .ok () { c with pos := c.pos + 1 } := by
  obtain ⟨hkind, htext⟩ := Prod.mk.inj ht
  unfold keyword
  rw [bind_of_eq_ok (exactly_of_token? h (by simp [TokenClass.contains, hkind]) htext)]
  rfl

private theorem close_of_token? {t' : Token} (h : c.token? = some t) (ht : t.lexeme = ⟨.punctuator, ")"⟩)
    (h' : Cursor.token? { c with pos := c.pos + 1 } = some t') (ht' : t'.lexeme = ⟨.punctuator, "."⟩) :
    close c = .ok () { c with pos := c.pos + 1 + 1 } := by
  unfold close
  rw [bind_of_eq_ok (punctuator_of_token? h ht), punctuator_of_token? h' ht']

/-- A directive is parsed by its keyword. -/
theorem directive_eq_diagnosed {k : Keyword} {hyphen word : Token} (ts : List Token)
    (hhyphen : hyphen.lexeme = ⟨.operator, "-"⟩) (hword : Keyword.ofText? word.text = some k) :
    directive ⟨hyphen :: word :: ts, 0⟩ = diagnosed word.text (ofKeyword k) ⟨hyphen :: word :: ts, 1⟩ := by
  obtain ⟨hkind, htext⟩ := Prod.mk.inj hhyphen
  have hsecond : Cursor.token? ⟨hyphen :: word :: ts, 1⟩ = some word := Cursor.tokenAt?_natCast _ 1
  have hfirst : exactly (.of .operator) "-" ⟨hyphen :: word :: ts, 0⟩ = .ok hyphen ⟨hyphen :: word :: ts, 1⟩ :=
    exactly_of_token? (Cursor.tokenAt?_natCast _ 0) (by simp [TokenClass.contains, hkind]) htext
  unfold directive
  rw [bind_of_eq_ok hfirst, bind_of_eq_ok (current_of_token? hsecond), hword]

private theorem directive_of_keyword {k : Keyword} {hyphen word : Token} {ts : List Token} {d : Directive}
    (hhyphen : hyphen.lexeme = ⟨.operator, "-"⟩) (hword : word.text = k.text)
    (hparse : ofKeyword k ⟨hyphen :: word :: ts, 1⟩ = .ok d c) : Directive.parse (hyphen :: word :: ts) = .ok d := by
  have hkeyword : Keyword.ofText? word.text = some k := by rw [hword, Keyword.ofText?_text]
  rw [Directive.parse, directive_eq_diagnosed ts hhyphen hkeyword, diagnosed, hparse]

end Parser

/-! ### Conditionals -/

/-- The keyword that asks for a macro to be defined, or not to be. -/
def Keyword.opens (negated : Bool) : Keyword :=
  if negated then Keyword.ifndef else Keyword.ifdef

/-- What asks for a macro to be defined, or not to be. -/
def Action.opens (negated : Bool) (name : Token) : Action :=
  if negated then .ifndef name else .ifdef name

/-- The tokens that open a conditional. -/
def opening (negated : Bool) (name : Token) : List Token :=
  [{ kind := .operator, text := "-" }, { kind := .atom, text := (Keyword.opens negated).text },
    { kind := .punctuator, text := "(" }, name, { kind := .punctuator, text := ")" },
    { kind := .punctuator, text := "." }]

/-- The tokens of a directive that is only a keyword. -/
def bare (k : Keyword) : List Token :=
  [{ kind := .operator, text := "-" }, { kind := .atom, text := k.text }, { kind := .punctuator, text := "." }]

variable {form : List Token}

theorem exists_of_bare {k : Keyword} (h : form.map Token.lexeme = (bare k).map Token.lexeme) :
    ∃ hyphen word stop, form = [hyphen, word, stop] ∧ hyphen.lexeme = ⟨.operator, "-"⟩ ∧
      word.lexeme = (.atom, k.text) ∧ stop.lexeme = ⟨.punctuator, "."⟩ := by
  simpa [bare, List.map_eq_cons_iff, Token.lexeme, and_assoc] using h

theorem exists_of_opening {negated : Bool} {name : Token}
    (h : form.map Token.lexeme = (opening negated name).map Token.lexeme) :
    ∃ hyphen word bracket name' bracket' stop, form = [hyphen, word, bracket, name', bracket', stop] ∧
      hyphen.lexeme = ⟨.operator, "-"⟩ ∧ word.lexeme = (.atom, (Keyword.opens negated).text) ∧
      bracket.lexeme = ⟨.punctuator, "("⟩ ∧ name'.lexeme = name.lexeme ∧ bracket'.lexeme = ⟨.punctuator, ")"⟩ ∧
      stop.lexeme = ⟨.punctuator, "."⟩ := by
  simpa [opening, List.map_eq_cons_iff, Token.lexeme, and_assoc] using h

/-- A directive that is only a keyword is parsed as such. -/
theorem parse_bare {k : Keyword} {action : Action} {hyphen word stop : Token}
    (hk : Parser.ofKeyword k = Parser.bareDirective k.text action) (hhyphen : hyphen.lexeme = ⟨.operator, "-"⟩)
    (hword : word.lexeme = (.atom, k.text)) (hstop : stop.lexeme = ⟨.punctuator, "."⟩) :
    Directive.parse [hyphen, word, stop] = .ok ⟨[hyphen, word, stop], action⟩ := by
  refine Parser.directive_of_keyword hhyphen (congrArg Prod.snd hword) (c := ⟨[hyphen, word, stop], 3⟩) ?_
  rw [hk, Parser.bareDirective, Parser.bind_of_eq_ok (Parser.keyword_of_token? rfl hword),
    Parser.bind_of_eq_ok (Parser.punctuator_of_token? rfl hstop)]
  rfl

/-- A directive with the name of a macro in parentheses is parsed as such. -/
theorem parse_name {k : Keyword} {action : Token → Action} {hyphen word bracket name bracket' stop : Token}
    (hk : Parser.ofKeyword k = Parser.nameDirective k.text action) (hhyphen : hyphen.lexeme = ⟨.operator, "-"⟩)
    (hword : word.lexeme = (.atom, k.text)) (hbracket : bracket.lexeme = ⟨.punctuator, "("⟩)
    (hname : name.kind = .atom ∨ name.kind = .var) (hbracket' : bracket'.lexeme = ⟨.punctuator, ")"⟩)
    (hstop : stop.lexeme = ⟨.punctuator, "."⟩) :
    Directive.parse [hyphen, word, bracket, name, bracket', stop] =
      .ok ⟨[hyphen, word, bracket, name, bracket', stop], action name⟩ := by
  have hclass : [TokenClass.of .atom, .of .var].any (·.contains name) = true := by
    simpa [TokenClass.contains] using hname
  refine Parser.directive_of_keyword hhyphen (congrArg Prod.snd hword)
    (c := ⟨[hyphen, word, bracket, name, bracket', stop], 6⟩) ?_
  rw [hk, Parser.nameDirective, Parser.bind_of_eq_ok (Parser.keyword_of_token? rfl hword),
    Parser.bind_of_eq_ok (Parser.punctuator_of_token? rfl hbracket), Parser.macroName,
    Parser.bind_of_eq_ok (Parser.ofClass_of_token? rfl hclass),
    Parser.bind_of_eq_ok (Parser.close_of_token? rfl hbracket' rfl hstop)]
  rfl

end ErlangMacros
