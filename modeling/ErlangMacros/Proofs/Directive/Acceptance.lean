import ErlangMacros.Proofs.Directive.Diagnosis
import ErlangMacros.Proofs.Directive.Grammar

/-!
# Directives are accepted or reported

Tokens of texts that begin with a hyphen and a keyword and end at their only full stop are parsed if they are written in
the grammar of the keyword, and as what they say.  Otherwise the directive is reported as invalid, at one of its tokens
(`Directive.parse_accepts_written`).  For this, `Parser.StaysIn` follows the cursor through the parsers, also where they
fail.
-/

namespace ErlangMacros

/-! ### Where an invalid directive is reported -/

/-- A cursor that is not far before the start reports at a token. -/
theorem Cursor.exists_position? {c : Cursor} (hne : c.tokens ≠ []) (hpos : -1 ≤ c.pos) :
    ∃ t ∈ c.tokens, c.position? = some t.position := by
  have hlength : 0 < c.tokens.length := List.length_pos_iff.2 hne
  have hbound : c.offset (min c.pos (c.tokens.length - 1)) < c.tokens.length := by
    unfold offset
    split <;> omega
  refine ⟨c.tokens[c.offset (min c.pos (c.tokens.length - 1))], List.getElem_mem hbound, ?_⟩
  rw [position?, tokenAt?, if_pos (by omega), List.getElem?_eq_getElem hbound]
  rfl

namespace Parser

variable {α β : Type} {ts : List Token}

/-- A parser that starts at a place in the tokens stays in them.  Where it fails it may be back by one token. -/
def StaysIn (ts : List Token) (p : Parser α) : Prop :=
  ∀ c, c.tokens = ts → 0 ≤ c.pos →
    (∀ a c', p c = .ok a c' → c'.tokens = ts ∧ 0 ≤ c'.pos) ∧
      ∀ f c', p c = .error f c' → c'.tokens = ts ∧ -1 ≤ c'.pos

theorem StaysIn.pure (a : α) : StaysIn ts (pure a : Parser α) := by
  intro c hts hpos
  refine ⟨?_, ?_⟩
  · rintro _ _ ⟨⟩
    exact ⟨hts, hpos⟩
  · rintro _ _ ⟨⟩

theorem StaysIn.throw (f : Failure) : StaysIn ts (throw f : Parser α) := by
  intro c hts hpos
  refine ⟨?_, ?_⟩
  · rintro _ _ ⟨⟩
  · rintro _ _ ⟨⟩
    exact ⟨hts, by omega⟩

theorem StaysIn.reject (e : ParseError) : StaysIn ts (reject e : Parser α) :=
  .throw _

theorem StaysIn.seek {pos : Int} (h : 0 ≤ pos) : StaysIn ts (seek pos) := by
  intro c hts hpos
  refine ⟨?_, ?_⟩
  · rintro _ _ ⟨⟩
    exact ⟨hts, h⟩
  · rintro _ _ ⟨⟩

theorem StaysIn.advance : StaysIn ts advance := by
  intro c hts hpos
  refine ⟨?_, ?_⟩
  · rintro _ _ ⟨⟩
    exact ⟨hts, by show 0 ≤ c.pos + 1; omega⟩
  · rintro _ _ ⟨⟩

/-- A parser that looks at the cursor, which is in the tokens. -/
theorem StaysIn.get {k : Cursor → Parser β} (hk : ∀ c, c.tokens = ts → 0 ≤ c.pos → StaysIn ts (k c)) :
    StaysIn ts (get >>= k) :=
  fun c hts hpos => hk c hts hpos c hts hpos

theorem StaysIn.bind {p : Parser α} {k : α → Parser β} (hp : StaysIn ts p) (hk : ∀ a, StaysIn ts (k a)) :
    StaysIn ts (p >>= k) := by
  intro c hts hpos
  obtain ⟨hok, herror⟩ := hp c hts hpos
  refine ⟨fun b c' h => ?_, fun f c' h => ?_⟩
  · obtain ⟨a, c₁, hp', hk'⟩ := bind_eq_ok h
    obtain ⟨hts₁, hpos₁⟩ := hok a c₁ hp'
    exact (hk a c₁ hts₁ hpos₁).1 b c' hk'
  · rcases bind_eq_error h with h | ⟨a, c₁, hp', hk'⟩
    · exact herror f c' h
    · obtain ⟨hts₁, hpos₁⟩ := hok a c₁ hp'
      exact (hk a c₁ hts₁ hpos₁).2 f c' hk'

theorem StaysIn.ite {b : Prop} [Decidable b] {p q : Parser α} (hp : StaysIn ts p) (hq : StaysIn ts q) :
    StaysIn ts (if b then p else q) := by
  split
  · exact hp
  · exact hq

private theorem staysIn_current : StaysIn ts current := by
  refine .get fun c _ _ => ?_
  split
  · exact .pure _
  · exact .reject _

private theorem staysIn_ofClass (classes : List TokenClass) : StaysIn ts (ofClass classes) :=
  .bind staysIn_current fun _ => .ite (.bind .advance fun _ => .pure _) (.reject _)

private theorem staysIn_exactly (wanted : TokenClass) (text : Text) : StaysIn ts (exactly wanted text) :=
  .bind staysIn_current fun _ => .ite (.bind .advance fun _ => .pure _) (.reject _)

private theorem staysIn_punctuator (text : Text) : StaysIn ts (punctuator text) :=
  .bind (staysIn_exactly _ _) fun _ => .pure _

private theorem staysIn_keyword (text : Text) : StaysIn ts (keyword text) :=
  .bind (staysIn_exactly _ _) fun _ => .pure _

private theorem staysIn_moreParams (seen : List Token) (bound : Nat) : StaysIn ts (moreParams seen bound) := by
  induction bound generalizing seen with
  | zero => exact .reject _
  | succ bound ih =>
    refine .bind (staysIn_ofClass _) fun p => .ite ?_ ?_
    · exact .bind (.reject _) fun _ => .bind staysIn_current fun _ =>
        .ite (.bind .advance fun _ => ih _) (.bind (staysIn_punctuator _) fun _ => .pure _)
    · exact .bind staysIn_current fun _ =>
        .ite (.bind .advance fun _ => ih _) (.bind (staysIn_punctuator _) fun _ => .pure _)

private theorem staysIn_paramList : StaysIn ts paramList :=
  .bind (staysIn_punctuator _) fun _ => .bind staysIn_current fun _ =>
    .ite (.bind .advance fun _ => .pure _) (.get fun _ _ _ => staysIn_moreParams _ _)

private theorem staysIn_close : StaysIn ts close :=
  .bind (staysIn_punctuator _) fun _ => staysIn_punctuator _

private theorem staysIn_node (action : Action) : StaysIn ts (node action) :=
  .get fun _ _ _ => .pure _

private theorem staysIn_untilClose (least : Nat) (e : ParseError) : StaysIn ts (untilClose least e) := by
  refine .get fun c _ hpos => ?_
  dsimp only
  split
  · exact .bind (.seek (by omega)) fun _ => .reject _
  · next hlong =>
    -- the end stands behind the cursor
    have hend : ¬ ((c.tokens.length : Int) - 2 < c.pos + least) := by
      intro h
      simp [h] at hlong
    exact .bind (.seek (by omega)) fun _ => .bind staysIn_close fun _ => .pure _

private theorem staysIn_define : StaysIn ts define := by
  refine .bind (staysIn_keyword _) fun _ => .bind (staysIn_punctuator _) fun _ => .bind (staysIn_ofClass _) fun name =>
    .bind staysIn_current fun _ => ?_
  have hrest (params : Option (List Token)) : StaysIn ts (do
      punctuator ","
      let body ← untilClose 0 .missingClose
      node (.define name params body)) :=
    .bind (staysIn_punctuator _) fun _ => .bind (staysIn_untilClose _ _) fun _ => staysIn_node _
  have hparams : StaysIn ts (some <$> paramList) := by
    rw [map_eq_pure_bind]
    exact .bind staysIn_paramList fun _ => .pure _
  exact .ite (.bind hparams hrest) (.bind (.pure _) hrest)

private theorem staysIn_item (text : Text) (classes : List TokenClass) (action : Token → Action) :
    StaysIn ts (do
      keyword text
      punctuator "("
      let t ← ofClass classes
      close
      node (action t)) :=
  .bind (staysIn_keyword _) fun _ => .bind (staysIn_punctuator _) fun _ => .bind (staysIn_ofClass _) fun _ =>
    .bind staysIn_close fun _ => staysIn_node _

private theorem staysIn_bareDirective (text : Text) (action : Action) : StaysIn ts (bareDirective text action) :=
  .bind (staysIn_keyword _) fun _ => .bind (staysIn_punctuator _) fun _ => staysIn_node _

private theorem staysIn_messageDirective (text : Text) (action : Text → Action) :
    StaysIn ts (messageDirective text action) := by
  refine .bind (staysIn_keyword _) fun _ => .bind (staysIn_punctuator _) fun _ =>
    .bind (staysIn_untilClose _ _) fun _ => ?_
  split
  · exact staysIn_node _
  · exact .throw _

private theorem staysIn_file : StaysIn ts file := by
  refine .bind (staysIn_keyword _) fun _ => .bind (staysIn_punctuator _) fun _ => .bind (staysIn_ofClass _) fun name =>
    .bind (staysIn_punctuator _) fun _ => .bind (staysIn_ofClass _) fun line => .ite ?_ ?_
  · -- the cursor goes back to the number
    intro c hts hpos
    refine ⟨?_, ?_⟩
    · rintro _ _ ⟨⟩
    · rintro _ _ ⟨⟩
      exact ⟨hts, by show -1 ≤ c.pos - 1; omega⟩
  · exact .bind staysIn_close fun _ => staysIn_node _

private theorem staysIn_ofKeyword (k : Keyword) : StaysIn ts (ofKeyword k) := by
  cases k with
  | define => exact staysIn_define
  | undef => exact staysIn_item _ _ _
  | ifdef => exact staysIn_item _ _ _
  | ifndef => exact staysIn_item _ _ _
  | otherwise => exact staysIn_bareDirective _ _
  | endif => exact staysIn_bareDirective _ _
  | includeFile => exact staysIn_item _ _ _
  | includeLib => exact staysIn_item _ _ _
  | error => exact staysIn_messageDirective _ _
  | warning => exact staysIn_messageDirective _ _
  | file => exact staysIn_file

end Parser

/-! ### What a directive is parsed as -/

namespace Directive

open Token (placed)

/-- What is written ends with a full stop. -/
theorem Written.exists_stop {action : Action} {ts : List Token} (h : Written action ts) :
    ∃ front stop, ts = front ++ [stop] ∧ stop.isSymbol "." = true := by
  cases h with
  | otherwise hstop => exact ⟨[], _, rfl, hstop⟩
  | endif hstop => exact ⟨[], _, rfl, hstop⟩
  | define _ _ _ h => exact h.exists_stop
  | undef _ h => exact h.exists_stop
  | ifdef _ h => exact h.exists_stop
  | ifndef _ h => exact h.exists_stop
  | includeFile _ h => exact h.exists_stop
  | includeLib _ h => exact h.exists_stop
  | error _ _ h => exact h.exists_stop
  | warning _ _ h => exact h.exists_stop
  | file _ _ _ _ h => exact h.exists_stop

variable {hyphen word : Token} {ts : List Token} {k : Keyword}

theorem parse_eq_ok_iff {d : Directive} (hhyphen : hyphen.lexeme = ⟨.operator, "-"⟩)
    (hword : Keyword.ofText? word.text = some k) :
    parse (hyphen :: word :: ts) = .ok d ↔ ∃ c, Parser.ofKeyword k ⟨hyphen :: word :: ts, 1⟩ = .ok d c := by
  rw [parse, Parser.directive_eq_diagnosed ts hhyphen hword, Parser.diagnosed]
  rcases Parser.ofKeyword k ⟨hyphen :: word :: ts, 1⟩ with ⟨d', c⟩ | ⟨f, c⟩
  · simp
  · constructor
    · intro h
      split at h
      · next hok => split at hok <;> cases hok
      · cases h
    · rintro ⟨_, ⟨⟩⟩

/-- The hyphen and the keyword of a directive are no full stops. -/
theorem stopsLast_of_dropLast (hhyphen : hyphen.isSymbol "-" = true) (hkind : word.kind = .atom)
    (hlast : ∀ t ∈ ts.dropLast, t.isSymbol "." = false) : Token.StopsLast (hyphen :: word :: ts) := by
  have hfirst : hyphen.isSymbol "." = false := Token.isSymbol_eq_false hhyphen (by decide)
  have hsecond : word.isSymbol "." = false := by simp [Token.isSymbol, Kind.isSymbol, hkind]
  intro t ht
  cases ts with
  | nil =>
    obtain rfl : t = hyphen := by simpa using ht
    exact hfirst
  | cons t' ts =>
    rw [List.dropLast_cons_cons, List.dropLast_cons_cons, List.mem_cons, List.mem_cons] at ht
    rcases ht with rfl | rfl | ht
    · exact hfirst
    · exact hsecond
    · exact hlast t ht

/-- A directive is parsed exactly as what is written. -/
theorem parse_eq_ok_iff_written {d : Directive} (hreadable : ∀ t ∈ hyphen :: word :: ts, t.IsReadable)
    (hlast : Token.StopsLast (hyphen :: word :: ts)) (hhyphen : hyphen.lexeme = ⟨.operator, "-"⟩)
    (hkind : word.kind = .atom) (hword : word.text = k.text) :
    parse (hyphen :: word :: ts) = .ok d ↔
      d.tokens = hyphen :: word :: ts ∧ d.action.keyword = k ∧ Written d.action ts := by
  rw [parse_eq_ok_iff hhyphen (by rw [hword, Keyword.ofText?_text])]
  have hreads := Parser.reads_ofKeyword hreadable hlast k [hyphen] (word :: ts) rfl d
  constructor
  · rintro ⟨c, h⟩
    obtain ⟨_, rest, hsplit, ⟨word', back, action, rfl, -, ⟨hk, hwritten⟩, rfl⟩, -⟩ := (hreads c).1 h
    obtain ⟨rfl, rfl⟩ : word = word' ∧ ts = back ++ rest := by simpa using hsplit
    -- nothing is left behind the full stop
    obtain ⟨front, stop, rfl, hstop⟩ := hwritten.exists_stop
    obtain rfl : rest = [] := hlast.eq_nil hstop (hyphen :: word :: front) rest (by simp)
    rw [List.append_nil]
    exact ⟨rfl, hk, hwritten⟩
  · rintro ⟨htokens, hk, hwritten⟩
    refine ⟨_, (hreads _).2 ⟨word :: ts, [], by simp, ⟨word, ts, d.action, rfl, ?_, ⟨hk, hwritten⟩, ?_⟩, rfl⟩⟩
    · rw [Token.lexeme, hkind, hword]
    · rw [← htokens]

/-- A directive that is not parsed is reported as invalid, at one of its tokens. -/
theorem parse_invalid (hreadable : ∀ t ∈ hyphen :: word :: ts, t.IsReadable)
    (hhyphen : hyphen.lexeme = ⟨.operator, "-"⟩) (hword : Keyword.ofText? word.text = some k)
    (hno : ∀ d, parse (hyphen :: word :: ts) ≠ .ok d) :
    ∃ e, ∃ t ∈ hyphen :: word :: ts,
      parse (hyphen :: word :: ts) = .error (.diagnose (.invalidDirective word.text e) (some t.position)) := by
  have hstays := Parser.staysIn_ofKeyword k ⟨hyphen :: word :: ts, 1⟩ rfl Int.one_nonneg
  rcases hresult : Parser.ofKeyword k ⟨hyphen :: word :: ts, 1⟩ with ⟨d, c⟩ | ⟨f, c⟩
  · exact absurd ((parse_eq_ok_iff hhyphen hword).2 ⟨c, hresult⟩) (hno d)
  · obtain ⟨htokens, hpos⟩ : c.tokens = hyphen :: word :: ts ∧ -1 ≤ c.pos := hstays.2 f c hresult
    obtain ⟨e, rfl⟩ := Parser.isRejected_ofKeyword (fun t ht => (hreadable t ht).value) hresult
    obtain ⟨t, ht, hposition⟩ := c.exists_position? (by rw [htokens]; simp) hpos
    rw [htokens] at ht
    refine ⟨e, t, ht, ?_⟩
    rw [parse, Parser.directive_eq_diagnosed ts hhyphen hword, Parser.diagnosed, hresult]
    dsimp only
    rw [hposition]

/-! ### The parts of a definition -/

/-- The lexemes of the parameters of a definition. -/
def paramLexemes : Option (List Token) → List (Kind × Text)
  | none => []
  | some params =>
    ⟨.punctuator, "("⟩ :: ((params.map Token.lexeme).intersperse ⟨.punctuator, ","⟩ ++ [⟨.punctuator, ")"⟩])

/-- The lexemes of a definition with the given parts. -/
def defineLexemes (name : Token) (params : Option (List Token)) (body : List Token) : List (Kind × Text) :=
  [⟨.operator, "-"⟩, ⟨.atom, "define"⟩, ⟨.punctuator, "("⟩, name.lexeme] ++ paramLexemes params ++
    ⟨.punctuator, ","⟩ :: (body.map Token.lexeme ++ [⟨.punctuator, ")"⟩, ⟨.punctuator, "."⟩])

private theorem map_lexeme_of_paramTokens {params : List Token} (h : Parser.ParamTokens ts params)
    (hreadable : ∀ t ∈ ts, t.IsReadable) :
    ts.map Token.lexeme = (params.map Token.lexeme).intersperse ⟨.punctuator, ","⟩ ++ [⟨.punctuator, ")"⟩] := by
  induction h with
  | @last param closing _ hclosing =>
    have hlexeme : closing.lexeme = ⟨.punctuator, ")"⟩ := (hreadable closing (by simp)).lexeme_symbol (by decide) hclosing
    simp [hlexeme]
  | @cons param comma ts params _ hcomma htail ih =>
    have hlexeme : comma.lexeme = ⟨.punctuator, ","⟩ := (hreadable comma (by simp)).lexeme_symbol (by decide) hcomma
    obtain ⟨next, params, rfl⟩ : ∃ next more, params = next :: more := by
      cases htail with
      | last => exact ⟨_, _, rfl⟩
      | cons => exact ⟨_, _, rfl⟩
    rw [List.map_cons, List.map_cons, ih fun t ht => hreadable t (by simp [ht]), hlexeme]
    rfl

private theorem Params.map_lexeme {params : Option (List Token)} (h : Params ts params)
    (hreadable : ∀ t ∈ ts, t.IsReadable) : ts.map Token.lexeme = paramLexemes params := by
  cases h with
  | none => rfl
  | some hlist =>
    cases hlist with
    | @empty opening closing hopening hclosing =>
      have hfirst : opening.lexeme = ⟨.punctuator, "("⟩ := (hreadable opening (by simp)).lexeme_symbol (by decide) hopening
      have hlast : closing.lexeme = ⟨.punctuator, ")"⟩ := (hreadable closing (by simp)).lexeme_symbol (by decide) hclosing
      simp [paramLexemes, hfirst, hlast]
    | @cons opening tail params hopening htail =>
      have hfirst : opening.lexeme = ⟨.punctuator, "("⟩ := (hreadable opening (by simp)).lexeme_symbol (by decide) hopening
      rw [List.map_cons, hfirst, map_lexeme_of_paramTokens htail fun t ht => hreadable t (by simp [ht])]
      rfl

/-- The parts of a definition that is written are put together to all of it. -/
theorem Written.map_lexeme {name : Token} {params : Option (List Token)} {body : List Token}
    (h : Written (.define name params body) ts) (hreadable : ∀ t ∈ ts, t.IsReadable) :
    ⟨.operator, "-"⟩ :: ⟨.atom, "define"⟩ :: ts.map Token.lexeme = defineLexemes name params body := by
  obtain @⟨_, comma, ps, _, _, _, -, hparams, hcomma, henclosed⟩ := h
  obtain @⟨opening, closing, stop, hopening, hclosing, hstop⟩ := henclosed
  have hfirst : opening.lexeme = ⟨.punctuator, "("⟩ := (hreadable opening (by simp)).lexeme_symbol (by decide) hopening
  have hthen : comma.lexeme = ⟨.punctuator, ","⟩ := (hreadable comma (by simp)).lexeme_symbol (by decide) hcomma
  have hlast : closing.lexeme = ⟨.punctuator, ")"⟩ := (hreadable closing (by simp)).lexeme_symbol (by decide) hclosing
  have hend : stop.lexeme = ⟨.punctuator, "."⟩ := (hreadable stop (by simp)).lexeme_symbol (by decide) hstop
  simp [defineLexemes, ← hparams.map_lexeme fun t ht => hreadable t (by simp [ht]), hfirst, hthen, hlast, hend]

/-! ### Acceptance -/

/-- The parser of directives accepts its grammar and nothing else.  Over tokens that texts give, which begin with a hyphen
and the atom of a keyword and have no full stop but at the end, a directive is parsed as an action if and only if the action
has this keyword and is written behind it.  The parts of a definition are put together to all of its tokens.  What is
written in no way is reported as an invalid directive, at one of the tokens. -/
theorem parse_accepts_written {hyphen word : Token} {ts : List Token}
    (hlexed : ∀ t ∈ hyphen :: word :: ts, ∃ text filename, (Lexing.ofText text filename).Gives t)
    (hhyphen : hyphen.isSymbol "-" = true) (hkind : word.kind = .atom)
    (hkeyword : (Keyword.ofText? word.text).isSome = true) (hlast : ∀ t ∈ ts.dropLast, t.isSymbol "." = false) :
    (∀ d, parse (hyphen :: word :: ts) = .ok d ↔
        d.tokens = hyphen :: word :: ts ∧ word.text = d.action.keyword.text ∧ Written d.action ts) ∧
      (∀ name params body, parse (hyphen :: word :: ts) = .ok ⟨hyphen :: word :: ts, .define name params body⟩ →
        (hyphen :: word :: ts).map Token.lexeme = defineLexemes name params body) ∧
      ((∀ action, word.text = action.keyword.text → ¬ Written action ts) →
        ∃ e, ∃ t ∈ hyphen :: word :: ts,
          parse (hyphen :: word :: ts) = .error (.diagnose (.invalidDirective word.text e) (some t.position))) := by
  have hreadable : ∀ t ∈ hyphen :: word :: ts, t.IsReadable := by
    intro t ht
    obtain ⟨text, filename, hgives⟩ := hlexed t ht
    exact hgives.isReadable
  have hfirst : hyphen.lexeme = ⟨.operator, "-"⟩ := (hreadable hyphen (by simp)).lexeme_hyphen hhyphen
  obtain ⟨k, hk⟩ := Option.isSome_iff_exists.1 hkeyword
  have hword : word.text = k.text := (Keyword.text_of_ofText? hk).symm
  have hstops : Token.StopsLast (hyphen :: word :: ts) := stopsLast_of_dropLast hhyphen hkind hlast
  have hparse (d : Directive) : parse (hyphen :: word :: ts) = .ok d ↔
      d.tokens = hyphen :: word :: ts ∧ word.text = d.action.keyword.text ∧ Written d.action ts := by
    rw [parse_eq_ok_iff_written hreadable hstops hfirst hkind hword, hword, Keyword.text_inj, eq_comm (a := k)]
  refine ⟨hparse, fun name params body h => ?_, fun hno => ?_⟩
  · obtain ⟨-, htext, hwritten⟩ := (hparse _).1 h
    have hsecond : word.lexeme = ⟨.atom, "define"⟩ := by rw [Token.lexeme, hkind, htext]; rfl
    rw [List.map_cons, List.map_cons, hfirst, hsecond, hwritten.map_lexeme fun t ht => hreadable t (by simp [ht])]
  · refine parse_invalid hreadable hfirst hk fun d h => ?_
    obtain ⟨-, htext, hwritten⟩ := (hparse d).1 h
    exact hno d.action htext hwritten

/-- A definition whose body has brackets and commas of its own, also ones that are not balanced. -/
theorem parse_accepts_written_unbalanced :
    let hyphen := placed .operator "-" 0
    let word := placed .atom "define" 1
    let name := placed .atom "f" 8
    let params := [placed .var "X" 10, placed .var "Y" 12]
    let body := [placed .punctuator ")" 15, placed .var "X" 16, placed .punctuator "," 17, placed .punctuator "(" 18]
    let list := [placed .punctuator "(" 9, placed .var "X" 10, placed .punctuator "," 11, placed .var "Y" 12,
      placed .punctuator ")" 13]
    let ts := placed .punctuator "(" 7 :: name :: (list ++ placed .punctuator "," 14 ::
      (body ++ [placed .punctuator ")" 19, placed .punctuator "." 20]))
    (Lexing.ofText "-define(f(X,Y),)X,().").tokens = hyphen :: word :: ts ∧
      parse (hyphen :: word :: ts) = .ok ⟨hyphen :: word :: ts, .define name (some params) body⟩ ∧
      (hyphen :: word :: ts).map Token.lexeme = defineLexemes name (some params) body := by
  intro hyphen word name params body list ts
  have htokens : (Lexing.ofText "-define(f(X,Y),)X,().").tokens = hyphen :: word :: ts := by decide +kernel
  have hlexed : ∀ t ∈ hyphen :: word :: ts, ∃ text filename, (Lexing.ofText text filename).Gives t := by
    intro t ht
    rw [← htokens] at ht
    exact ⟨_, _, .inl ht⟩
  obtain ⟨hparse, hparts, -⟩ := parse_accepts_written hlexed rfl rfl (by decide) (by decide +kernel)
  have hlist : Parser.ParamList list params := .cons rfl (.cons rfl rfl (.last rfl rfl)) (by decide)
  have hwritten : Written (.define name (some params) body) ts := .define (.inl rfl) (.some hlist) rfl (.mk rfl rfl rfl)
  have hok := (hparse ⟨_, _⟩).2 ⟨rfl, rfl, hwritten⟩
  exact ⟨htokens, hok, hparts _ _ _ hok⟩

end Directive

end ErlangMacros
