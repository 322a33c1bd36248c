import ErlangMacros.Macro.Definition
import ErlangMacros.Proofs.Directive.Acceptance
import ErlangMacros.Proofs.Lexer.Joining

/-!
# Definitions in texts and in directives

A macro can be defined by a text such as `f(X)={X, 1}` or by a directive such as `-define(f(X), {X, 1}).`.  With the same
header and the same body the two define the same macro, but for where its tokens stand
(`Macro.ofDefinition_agrees_with_directive`).  In the text the body stands next to `=`, though, and if `=` and the beginning
of the body make a longer operator, then the text defines nothing: so it is with `X=<<1>>`, where `=<` is read.
-/

namespace ErlangMacros

/-! ### The grammar of definitions -/

namespace Parser

open Directive

variable {α : Type} {ts : List Token}

/-- Match the parameters of a macro, if there are some. -/
theorem reads_maybeParams (hreadable : ∀ t ∈ ts, t.IsReadable) {M : Option (List Token) → Language α}
    {k : Option (List Token) → Parser α} (hk : ∀ params, Reads ts (M params) (k params)) :
    Reads ts
      (fun used a rest => ∃ ps params back, used = ps ++ back ∧ Params ps params ∧
        (ps = [] → isSymbol? (back ++ rest).head? "(" = false) ∧ M params back a rest)
      (do
        let c ← get
        let params ← if isSymbol? c.token? "(" then some <$> paramList else pure none
        k params) := by
  intro before after hts a c
  have hchoice := Reads.ite (b := isSymbol? after.head? "(" = true) (((reads_paramList hreadable).map some).bind hk)
    ((Reads.pure none).bind hk)
  change (if isSymbol? (Cursor.token? ⟨ts, before.length⟩) "(" = true then _ else _ : Parser α) _ = .ok a c ↔ _
  rw [token?_behind hts]
  refine (hchoice before after hts a c).trans ?_
  constructor
  · rintro ⟨_, rest, rfl, ⟨-, ps, back, _, rfl, ⟨params, hparams, rfl⟩, hM⟩ | ⟨hno, _, back, _, rfl, ⟨rfl, rfl⟩, hM⟩, rfl⟩
    · refine ⟨ps ++ back, rest, rfl, ⟨ps, some params, back, rfl, .some hparams, ?_, hM⟩, rfl⟩
      rintro rfl
      cases hparams
    · exact ⟨back, rest, rfl, ⟨[], none, back, rfl, .none, fun _ => Bool.eq_false_iff.2 hno, hM⟩, rfl⟩
  · rintro ⟨_, rest, rfl, ⟨ps, params, back, rfl, hparams, hno, hM⟩, rfl⟩
    cases hparams with
    | none =>
      refine ⟨back, rest, rfl, .inr ⟨?_, [], back, none, rfl, ⟨rfl, rfl⟩, hM⟩, rfl⟩
      exact Bool.eq_false_iff.1 (hno rfl)
    | @some ps params hlist =>
      refine ⟨ps ++ back, rest, rfl, .inl ⟨?_, ps, back, some params, rfl, ⟨params, hlist, rfl⟩, hM⟩, rfl⟩
      obtain ⟨opening, tail, rfl, hopening⟩ := hlist.exists_opening
      exact hopening

/-- Match a definition: a name, maybe with parameters, and then nothing, or `=` and all that stands behind it. -/
theorem reads_definition (hreadable : ∀ t ∈ ts, t.IsReadable) :
    Reads ts
      (fun used d rest => ∃ name ps params, IsName name ∧ Params ps params ∧
        (used = name :: ps ∧ rest = [] ∧ d = (name, params, [⟨.atom, "true", name.position, false⟩]) ∨
          ∃ equals, used = name :: (ps ++ [equals]) ∧ equals.lexeme = ⟨.operator, "="⟩ ∧ d = (name, params, rest)))
      definition := by
  have hequals : Reads ts (single fun t => t.lexeme = ⟨.operator, "="⟩) (exactly (.of .operator) "=") :=
    (reads_exactly _ _).congr_single fun t => by simp [TokenClass.contains, Token.lexeme]
  refine Reads.congr (reads_macroName.bind fun name => reads_maybeParams hreadable fun params =>
    reads_atEnd (Reads.pure (name, params, [(⟨.atom, "true", name.position, false⟩ : Token)]))
      (hequals.bind fun _ => reads_rest fun rest => (name, params, rest))) fun before used d rest _ => ?_
  constructor
  · rintro ⟨_, _, name, rfl, ⟨rfl, hname⟩, ps, params, back, rfl, hparams, -, ⟨hnil, -, rfl⟩ |
      ⟨-, _, _, equals, rfl, ⟨rfl, hequals⟩, rfl, rfl⟩⟩
    · obtain ⟨rfl, rfl⟩ := List.append_eq_nil_iff.1 hnil
      exact ⟨name, ps, params, hname, hparams, .inl ⟨by simp, rfl, rfl⟩⟩
    · exact ⟨name, ps, params, hname, hparams, .inr ⟨equals, rfl, hequals, rfl⟩⟩
  · rintro ⟨name, ps, params, hname, hparams, ⟨rfl, rfl, rfl⟩ | ⟨equals, rfl, hequals, rfl⟩⟩
    · exact ⟨[name], ps, name, rfl, ⟨rfl, hname⟩, ps, params, [], by simp, hparams, fun _ => rfl,
        .inl ⟨rfl, rfl, rfl⟩⟩
    · have hno : isSymbol? (some equals) "(" = false := by
        obtain ⟨-, htext⟩ := Prod.mk.inj hequals
        simp [isSymbol?, Token.isSymbol, htext]
      exact ⟨[name], ps ++ [equals], name, rfl, ⟨rfl, hname⟩, ps, params, [equals], rfl, hparams, fun _ => hno,
        .inr ⟨by simp, [equals], [], equals, rfl, ⟨rfl, hequals⟩, rfl, rfl⟩⟩

end Parser

namespace Directive

variable {ts us : List Token} {params : Option (List Token)}

/-- The parameters of a macro end in one place. -/
theorem Params.unique {us' rest rest' : List Token} {params' : Option (List Token)} (h : Params us params)
    (h' : Params us' params') (heq : us ++ rest = us' ++ rest') (hreadable : ∀ t ∈ us ++ rest, t.IsReadable)
    (hrest : isSymbol? rest.head? "(" = false) (hrest' : isSymbol? rest'.head? "(" = false) :
    us = us' ∧ params = params' ∧ rest = rest' := by
  have hreads := Parser.reads_maybeParams hreadable fun params => Parser.Reads.pure params
  exact hreads.unique [] rfl ⟨us, params, [], by simp, h, fun _ => hrest, rfl, rfl⟩ heq.symm
    ⟨us', params', [], by simp, h', fun _ => hrest', rfl, rfl⟩

end Directive

/-! ### The texts of definitions -/

namespace Scan

/-- The symbols of a header do not run on. -/
theorem not_runsOn_bracket {text : Text} (htext : text ∈ [("(" : Text), ",", ")"]) (ds : List CodePoint) :
    ¬ RunsOn text.toList ds := by
  have hsymbols : ∀ text ∈ [("(" : Text), ",", ")"], (Kind.punctuator, text) ∈ symbols ∧
      ∀ s' ∈ symbols, text.toList <+: s'.2.toList → s' = (Kind.punctuator, text) := by
    decide +kernel
  obtain ⟨hs, hshort⟩ := hsymbols text htext
  exact not_runsOn_symbol hs hshort

/-- What makes a longer operator of an equals sign. -/
def equalsTails : List Text :=
  ["=", "<", ">", ":=", "/="]

private theorem runsOn_equals_iff {cs : List CodePoint} :
    RunsOn ("=" : Text).toList cs ↔ ∃ tail ∈ equalsTails, tail.toList <+: cs := by
  constructor
  · intro hruns
    obtain ⟨s, hs, es, hcs, hes, heq⟩ :=
      exists_symbol_of_runsOn (s := ⟨.operator, "="⟩) (by decide +kernel) hruns
    have htails : ∀ s ∈ symbols, ("=" : Text).toList <+: s.2.toList → s.2.toList = ("=" : Text).toList ∨
        s.2.toList.tail ∈ equalsTails.map Text.toList := by
      decide +kernel
    rcases htails s hs ⟨es, heq.symm⟩ with hsame | htail
    · rw [hsame, List.self_eq_append_right] at heq
      exact absurd heq hes.ne_nil
    · rw [heq] at htail
      obtain ⟨tail, hmem, rfl⟩ := List.mem_map.1 htail
      exact ⟨tail, hmem, hcs⟩
  · rintro ⟨tail, htail, hcs⟩
    have hlonger : ∀ tail ∈ equalsTails, tail.toList ≠ [] ∧ IsLexeme .operator (("=" : Text).toList ++ tail.toList) := by
      unfold IsLexeme
      decide +kernel
    exact ⟨tail.toList, (hlonger tail htail).1, hcs, .operator, (hlonger tail htail).2⟩

end Scan

namespace Macro

open Directive
open Token (placed)

/-- A text spells the name of a macro, maybe with a list of parameters, and then leaves a gap without an open comment. -/
structure SpellsHeader (text : Text) (name : Token) (ps : List Token) (params : Option (List Token))
    (gap : List CodePoint) : Prop where
  isName : IsName name
  isParams : Params ps params
  lexes : Lexes text.toList ((name :: ps).map Token.lexeme) gap
  isGap : IsGap gap [',']

/-- The header of a macro: a name, maybe with a list of parameters. -/
def IsHeader (text : Text) : Prop :=
  ∃ name ps params gap, SpellsHeader text name ps params gap

/-- A text without comments is a header if its tokens are a name and the tokens of parameters. -/
theorem isHeader_of_tokens {text : Text} {name : Token} {ps : List Token} {params : Option (List Token)}
    (hending : (Lexing.ofText text).ending = .finished) (htokens : (Lexing.ofText text).tokens = name :: ps)
    (hname : IsName name) (hparams : Params ps params) (hno : .char '%' ∉ text.toList) : IsHeader text := by
  obtain ⟨gap, hlexes, hgap⟩ := lexes_of_finished hending
  rw [htokens] at hlexes
  have hblank := hgap.isBlank_of_not_mem fun hmem => hno (hlexes.suffix.subset hmem)
  exact ⟨name, ps, params, gap, hname, hparams, hlexes, isGap_of_isBlank hblank _⟩

variable {header : Text} {name : Token} {ps : List Token} {params : Option (List Token)} {gap : List CodePoint}

/-- A header is read as before if a comma or an equals sign is put behind it. -/
theorem SpellsHeader.lexes_append (h : SpellsHeader header name ps params gap) {c : CodePoint} (hc : c = ',' ∨ c = '=')
    (after : List CodePoint) :
    Lexes (header.toList ++ c :: after) ((name :: ps).map Token.lexeme) (gap ++ c :: after) ∧ IsGap gap (c :: after) := by
  have hends : ∀ s ∈ (name :: ps).map Token.lexeme, Scan.IsSteady s.2.toList ∧ ¬ Scan.RunsOn s.2.toList [c] := by
    intro s hs
    obtain ⟨t, ht, rfl⟩ := List.mem_map.1 hs
    have hcases : IsName t ∨ ∃ text ∈ [("(" : Text), ",", ")"], t.isSymbol text = true := by
      rcases List.mem_cons.1 ht with rfl | ht
      · exact .inl h.isName
      · exact (h.isParams.cases_of_mem ht).imp_left .inr
    rcases hcases with hkind | ⟨text, htext, hsymbol⟩
    · obtain ⟨hsteady, hnext⟩ := (h.lexes.isLexeme _ hs).runsOn_name hkind
      refine ⟨hsteady, fun hruns => ?_⟩
      obtain ⟨_, ⟨⟩, hchar⟩ := hnext [c] hruns
      rcases hc with rfl | rfl
      · exact absurd hchar (by decide)
      · exact absurd hchar (by decide)
    · obtain ⟨-, rfl⟩ : t.kind.isSymbol = true ∧ t.text = text := by simpa [Token.isSymbol] using hsymbol
      exact ⟨fun ds hruns => absurd hruns (Scan.not_runsOn_bracket htext ds), Scan.not_runsOn_bracket htext [c]⟩
  exact ⟨h.lexes.append (fun s hs => (hends s hs).1) fun s hs => (hends s (List.mem_of_getLast? hs)).2,
    h.isGap.of_closed (by decide) _⟩

/-- Tokens that begin with the lexemes of a header begin with a name and parameters. -/
theorem SpellsHeader.exists_of_map_lexeme (h : SpellsHeader header name ps params gap) {ts : List Token}
    {ls : List (Kind × Text)} (hts : ts.map Token.lexeme = (name :: ps).map Token.lexeme ++ ls) :
    ∃ name' ps' params' us, ts = name' :: (ps' ++ us) ∧ name'.lexeme = name.lexeme ∧ IsName name' ∧ Params ps' params' ∧
      params'.map (·.map Token.lexeme) = params.map (·.map Token.lexeme) ∧ us.map Token.lexeme = ls := by
  obtain ⟨name', _, rfl, hname, htail⟩ := List.map_eq_cons_iff.1 hts
  obtain ⟨ps', us, rfl, hps, hus⟩ := List.map_eq_append_iff.1 htail
  obtain ⟨params', hparams', hlexemes⟩ := h.isParams.of_map_lexeme hps
  refine ⟨name', ps', params', us, rfl, hname, ?_, hparams', hlexemes, hus⟩
  have hkind : name'.kind = name.kind := congrArg Prod.fst hname
  rw [IsName, hkind]
  exact h.isName

theorem SpellsHeader.isReadable (h : SpellsHeader header name ps params gap) {name' : Token}
    (hname : name'.lexeme = name.lexeme) : name'.IsReadable := by
  have hlexeme := h.lexes.isLexeme name.lexeme (by simp)
  rw [← hname] at hlexeme
  exact .inl (.inl hlexeme)

/-- Where an equals sign stands, a lexeme is read that starts with it. -/
theorem exists_lexeme_of_equals {cs rest : List CodePoint} {ls : List (Kind × Text)} (hgap : IsGap gap (.char '=' :: cs))
    (h : Lexes (gap ++ .char '=' :: cs) ls rest) (hrest : IsGap rest []) :
    ∃ s ls', ls = s :: ls' ∧ s.2 ≠ "(" ∧ (Scan.RunsOn ("=" : Text).toList cs → s.2 ≠ "=") := by
  have hstarts : StartsNoGap (.char '=' :: cs) := by
    rintro _ ⟨⟩
    decide
  generalize hwhole : gap ++ .char '=' :: cs = whole at h
  cases h with
  | nil =>
    obtain ⟨-, hnil⟩ := hgap.append_inj hstarts hrest nofun (by rw [hwhole, List.append_nil])
    cases hnil
  | @cons gap' cs' _ kind text ls hgap' hne found _ =>
    obtain ⟨-, hsame⟩ := hgap.append_inj hstarts hgap' (Scan.startsNoGap_of_lexeme hne found) hwhole
    refine ⟨_, ls, rfl, ?_, ?_⟩
    · rintro rfl
      cases hsame
    · rintro hruns rfl
      obtain rfl : cs = cs' := List.tail_eq_of_cons_eq hsame
      exact ((Scan.lexeme_append_eq_iff hne).1 found).2 hruns

/-! ### What a definition defines -/

private theorem ofDefinition_eq_ok_iff_parsed {text : Text} {m : Macro} :
    ofDefinition text = .ok m ↔ (Lexing.ofText text).ending = .finished ∧ ∃ name params body c,
      Parser.definition ⟨(Lexing.ofText text).tokens, 0⟩ = .ok (name, params, body) c ∧ make name params body = .ok m := by
  unfold ofDefinition
  dsimp only
  split
  · next hending =>
    split <;> simp [hending]
  · next hending => simp [hending]
  · next hending =>
    rw [and_iff_right hending]
    split
    · next name params body c hparsed =>
      have hescape : Failure.ofEscape (make name params body) = .ok m ↔ make name params body = .ok m := by
        rcases make name params body with e | m' <;> simp [Failure.ofEscape]
      simp [hparsed, hescape]
    · next hparsed => simp [hparsed]
    · next hparsed => simp [hparsed]

/-- A text defines a macro if it is a header, maybe with `=` and a body behind it. -/
theorem ofDefinition_eq_ok_iff {text : Text} {m : Macro} :
    ofDefinition text = .ok m ↔ (Lexing.ofText text).ending = .finished ∧ ∃ name ps params body, IsName name ∧
      Params ps params ∧ make name params body = .ok m ∧
      ((Lexing.ofText text).tokens = name :: ps ∧ body = [⟨.atom, "true", name.position, false⟩] ∨
        ∃ equals, (Lexing.ofText text).tokens = name :: (ps ++ equals :: body) ∧ equals.lexeme = ⟨.operator, "="⟩) := by
  have hreadable : ∀ t ∈ (Lexing.ofText text).tokens, t.IsReadable := fun t ht =>
    Lexing.isReadable_of_mem ht
  have hread := Parser.reads_definition hreadable [] (Lexing.ofText text).tokens rfl
  rw [ofDefinition_eq_ok_iff_parsed]
  refine and_congr_right fun _ => ?_
  constructor
  · rintro ⟨name, params, body, c, hdefinition, hmake⟩
    obtain ⟨used, rest, htokens, ⟨name, ps, params, hname, hparams, ⟨rfl, rfl, heq⟩ | ⟨equals, rfl, hequals, heq⟩⟩, -⟩ :=
      (hread _ _).1 hdefinition
    · cases heq
      exact ⟨name, ps, params, _, hname, hparams, hmake, .inl ⟨by simpa using htokens, rfl⟩⟩
    · cases heq
      exact ⟨name, ps, params, _, hname, hparams, hmake, .inr ⟨equals, by simpa using htokens, hequals⟩⟩
  · rintro ⟨name, ps, params, body, hname, hparams, hmake, ⟨htokens, rfl⟩ | ⟨equals, htokens, hequals⟩⟩
    · exact ⟨name, params, _, _, (hread _ _).2 ⟨_, [], by rw [htokens, List.append_nil], ⟨name, ps, params, hname, hparams,
        .inl ⟨rfl, rfl, rfl⟩⟩, rfl⟩, hmake⟩
    · exact ⟨name, params, body, _, (hread _ _).2 ⟨_, body, by rw [htokens]; simp, ⟨name, ps, params, hname, hparams,
        .inr ⟨equals, rfl, hequals, rfl⟩⟩, rfl⟩, hmake⟩

variable {name' : Token} {params' : Option (List Token)}

/-- What a macro is made of counts, and not where this stands. -/
theorem exists_make_of_lexemes (body body' : List Token) (hreadable : name.IsReadable) (hname : name.lexeme = name'.lexeme)
    (hparams : params.map (·.map Token.lexeme) = params'.map (·.map Token.lexeme)) :
    ∃ m m', make name params body = .ok m ∧ make name' params' body' = .ok m' ∧ m.name = m'.name ∧ m.params = m'.params ∧
      m.body = body ∧ m'.body = body' := by
  obtain ⟨n, hn⟩ := hreadable.nameValue
  have hn' : name'.nameValue = .ok n := by rw [← Token.nameValue_congr hname, hn]
  have htexts : params.map (·.map (·.text)) = params'.map (·.map (·.text)) := by
    have h := congrArg (Option.map (List.map Prod.snd)) hparams
    rw [Option.map_map, Option.map_map] at h
    simpa [Function.comp_def, Token.lexeme] using h
  refine ⟨⟨n, _, body, name.position⟩, ⟨n, _, body', name'.position⟩, ?_, ?_, rfl, htexts, rfl, rfl⟩
  · rw [make, hn]
    rfl
  · rw [make, hn']
    rfl

/-- The text of the directive that defines a macro with the given header and body. -/
def directiveText (header text : Text) : Text :=
  "-define(" ++ header ++ ", " ++ text ++ ")."

/-- Whatever is put behind the beginning of the directive, this is read first. -/
theorem lexes_define (after : List CodePoint) :
    Lexes (("-define(" : Text).toList ++ after) [⟨.operator, "-"⟩, ⟨.atom, "define"⟩, ⟨.punctuator, "("⟩] after := by
  have hhyphen : Lexes ([] ++ (("-" : Text).toList ++ ("define(" : Text).toList)) [⟨.operator, "-"⟩]
      ("define(" : Text).toList :=
    .cons (.nil _) (by decide) (by decide +kernel) (.nil _)
  have hword : Lexes ([] ++ (("define" : Text).toList ++ ("(" : Text).toList)) [⟨.atom, "define"⟩] ("(" : Text).toList :=
    .cons (.nil _) (by decide) (by decide +kernel) (.nil _)
  have hopening : Lexes ([] ++ (("(" : Text).toList ++ [])) [⟨.punctuator, "("⟩] [] :=
    .cons (.nil _) (by decide) (by decide +kernel) (.nil _)
  have hlexes : Lexes ("-define(" : Text).toList [⟨.operator, "-"⟩, ⟨.atom, "define"⟩, ⟨.punctuator, "("⟩] [] :=
    hhyphen.trans (hword.trans hopening)
  have hbracket : ∀ ds, ¬ Scan.RunsOn ("(" : Text).toList ds := Scan.not_runsOn_bracket (by simp)
  refine hlexes.append ?_ ?_
  · intro s hs
    simp only [List.mem_cons, List.not_mem_nil, or_false] at hs
    rcases hs with rfl | rfl | rfl
    · exact Scan.isSteady_symbol (s := ⟨.operator, "-"⟩) (by decide +kernel) (by decide +kernel)
    · exact ((hlexes.isLexeme ⟨.atom, "define"⟩ (by simp)).runsOn_name (.inl rfl)).1
    · exact fun ds hruns => absurd hruns (hbracket ds)
  · rintro _ ⟨⟩
    exact hbracket _

/-- The tokens of the directive begin with the header, and with the comma behind it. -/
theorem SpellsHeader.map_lexeme_directive (h : SpellsHeader header name ps params gap) {text : Text}
    (hending : (Lexing.ofText (directiveText header text)).ending = .finished) :
    ∃ ls, (Lexing.ofText (directiveText header text)).tokens.map Token.lexeme =
      [⟨.operator, "-"⟩, ⟨.atom, "define"⟩, ⟨.punctuator, "("⟩] ++
        ((name :: ps).map Token.lexeme ++ ⟨.punctuator, ","⟩ :: ls) := by
  have htext : (directiveText header text).toList =
      ("-define(" : Text).toList ++ (header.toList ++ .char ',' :: .char ' ' :: (text.toList ++ (")." : Text).toList)) := by
    simp [directiveText]
  obtain ⟨hheader, hgap⟩ := h.lexes_append (.inl rfl) (.char ' ' :: (text.toList ++ (")." : Text).toList))
  have hlexeme : Scan.IsLexeme .punctuator ("," : Text).toList := ⟨by decide, by decide +kernel⟩
  have hcomma := Lexes.single hgap hlexeme (Scan.not_runsOn_bracket (by simp) _)
  have hread := (lexes_define _).trans (hheader.trans hcomma)
  rw [← htext] at hread
  obtain ⟨rest, hlexes, hrest⟩ := lexes_of_finished hending
  obtain ⟨ls, hls, -⟩ := hread.follow hlexes hrest
  exact ⟨ls, by rw [hls]; simp⟩

/-- The directive has the name and the parameters of the header. -/
theorem SpellsHeader.lexeme_of_parse (h : SpellsHeader header name ps params gap) {text : Text} {d : Directive}
    {body : List Token} (hending : (Lexing.ofText (directiveText header text)).ending = .finished)
    (hparse : Directive.parse (Lexing.ofText (directiveText header text)).tokens = .ok d)
    (haction : d.action = .define name' params' body) :
    name'.lexeme = name.lexeme ∧ params'.map (·.map Token.lexeme) = params.map (·.map Token.lexeme) := by
  have hreadable : ∀ t ∈ (Lexing.ofText (directiveText header text)).tokens, t.IsReadable := fun t ht =>
    Lexing.isReadable_of_mem ht
  obtain ⟨ls, hlexemes⟩ := h.map_lexeme_directive hending
  generalize (Lexing.ofText (directiveText header text)).tokens = ts at hreadable hlexemes hparse
  obtain ⟨hyphen, _, rfl, hhyphen, hlexemes⟩ := List.map_eq_cons_iff.1 hlexemes
  obtain ⟨word, _, rfl, hword, hlexemes⟩ := List.map_eq_cons_iff.1 hlexemes
  obtain ⟨opening, _, rfl, -, hlexemes⟩ := List.map_eq_cons_iff.1 hlexemes
  obtain ⟨name₁, ps₁, params₁, _, rfl, hname, -, hparams, hsame, hlexemes⟩ := h.exists_of_map_lexeme hlexemes
  obtain ⟨comma, us, rfl, hcomma, -⟩ := List.map_eq_cons_iff.1 hlexemes
  -- the directive reads the same name and the same parameters
  have hkeyword : Keyword.ofText? word.text = some .define := by
    rw [show word.text = "define" from congrArg Prod.snd hword]
    decide
  obtain ⟨c, hparsed⟩ := (parse_eq_ok_iff hhyphen hkeyword).1 hparse
  obtain ⟨_, _, hsplit, ⟨rfl, _, _, _, rfl, -, ⟨_, ps₂, params₂, comma₂, _, -, hparams₂, hcomma₂, henclosed, rfl⟩,
      rfl⟩, -⟩ :=
    (Parser.reads_define hreadable [hyphen] _ rfl d c).1 hparsed
  cases haction
  obtain @⟨_, closing, stop, -, -, -⟩ := henclosed
  simp only [List.cons_append, List.append_assoc, List.append_nil, List.cons.injEq] at hsplit
  obtain ⟨-, -, rfl, hsplit⟩ := hsplit
  have hno : comma.isSymbol "(" = false := by
    simp [Token.isSymbol, show comma.text = "," from congrArg Prod.snd hcomma]
  have hbehind : ∀ t ∈ ps₁ ++ comma :: us, t.IsReadable := fun t ht =>
    hreadable t (List.mem_append_right [hyphen, word, opening, name₁] ht)
  obtain ⟨-, rfl, -⟩ := hparams.unique hparams₂ hsplit hbehind hno (Token.isSymbol_eq_false hcomma₂ (by decide))
  exact ⟨hname, hsame⟩

/-- A header with `=` and a body behind it is read as a header, `=` and the tokens of the body, if the body does not make
a longer operator of `=`. -/
theorem SpellsHeader.exists_ofDefinition (h : SpellsHeader header name ps params gap) {text : Text}
    (htext : (Lexing.ofText text).ending = .finished) (hno : ¬ Scan.RunsOn ("=" : Text).toList text.toList) :
    ∃ name' params' body, name'.lexeme = name.lexeme ∧
      params'.map (·.map Token.lexeme) = params.map (·.map Token.lexeme) ∧
      body.map Token.lexeme = (Lexing.ofText text).tokens.map Token.lexeme ∧
      ∀ m, make name' params' body = .ok m → ofDefinition (header ++ "=" ++ text) = .ok m := by
  obtain ⟨hheader, hgap⟩ := h.lexes_append (.inr rfl) text.toList
  have hlexeme : Scan.IsLexeme .operator ("=" : Text).toList := ⟨by decide, by decide +kernel⟩
  have hequals := Lexes.single hgap hlexeme hno
  obtain ⟨rest, hbody, hrest⟩ := lexes_of_finished htext
  have hwhole : (header ++ "=" ++ text).toList = header.toList ++ .char '=' :: text.toList := by simp
  obtain ⟨hending, hlexemes⟩ :=
    (hheader.trans (hequals.trans hbody)).tokenize hrest (l := .ofText (header ++ "=" ++ text)) hwhole
  obtain ⟨name', ps', params', _, htokens, hname, hisName, hparams, hsame, hback⟩ := h.exists_of_map_lexeme hlexemes
  obtain ⟨equals, body, rfl, hequals, hbody⟩ := List.map_eq_cons_iff.1 hback
  exact ⟨name', params', body, hname, hsame, hbody, fun m hmake =>
    ofDefinition_eq_ok_iff.2 ⟨hending, name', ps', params', body, hisName, hparams, hmake, .inr ⟨equals, htokens, hequals⟩⟩⟩

/-- If the body makes a longer operator of `=`, no macro is defined. -/
theorem SpellsHeader.ofDefinition_ne_ok (h : SpellsHeader header name ps params gap) {text : Text}
    (hruns : Scan.RunsOn ("=" : Text).toList text.toList) (m : Macro) : ofDefinition (header ++ "=" ++ text) ≠ .ok m := by
  intro hok
  obtain ⟨hending, name₁, ps₁, params₁, body, -, hparams₁, -, hshape⟩ := ofDefinition_eq_ok_iff.1 hok
  have hreadable : ∀ t ∈ (Lexing.ofText (header ++ "=" ++ text)).tokens, t.IsReadable := fun t ht =>
    Lexing.isReadable_of_mem ht
  obtain ⟨hheader, hgap⟩ := h.lexes_append (.inr rfl) text.toList
  obtain ⟨rest, hlexes, hrest⟩ := lexes_of_finished hending
  have hwhole : (header ++ "=" ++ text).toList = header.toList ++ .char '=' :: text.toList := by simp
  rw [hwhole] at hlexes
  obtain ⟨_, hlexemes, hmore⟩ := hheader.follow hlexes hrest
  obtain ⟨s, ls, rfl, hno, hlonger⟩ := exists_lexeme_of_equals hgap hmore hrest
  obtain ⟨name', ps', params', _, htokens, -, -, hparams, -, hback⟩ := h.exists_of_map_lexeme hlexemes
  obtain ⟨t, us, rfl, rfl, -⟩ := List.map_eq_cons_iff.1 hback
  have hstop : t.isSymbol "(" = false := by
    simp [Token.isSymbol, show t.text ≠ "(" from hno]
  rw [htokens] at hreadable hshape
  have hbehind : ∀ u ∈ ps' ++ t :: us, u.IsReadable := fun u hu => hreadable u (List.mem_cons_of_mem _ hu)
  rcases hshape with ⟨hshape, -⟩ | ⟨equals, hshape, hequals⟩
  · obtain ⟨-, hshape⟩ := List.cons.inj hshape
    obtain ⟨-, -, hnil⟩ := hparams.unique hparams₁ (hshape.trans (List.append_nil _).symm) hbehind hstop rfl
    cases hnil
  · obtain ⟨-, hshape⟩ := List.cons.inj hshape
    have hstop' : equals.isSymbol "(" = false := by
      simp [Token.isSymbol, show equals.text = "=" from congrArg Prod.snd hequals]
    obtain ⟨-, -, hsame⟩ := hparams.unique hparams₁ hshape hbehind hstop hstop'
    obtain ⟨rfl, -⟩ := List.cons.inj hsame
    exact hlonger hruns (congrArg Prod.snd hequals)

/-! ### Agreement -/

/-- A text that defines a macro agrees with a directive.  Let the directive with a header and a text behind the comma be
lexed and parsed, and let the tokens of the text be its body, but for where they stand.  Then the header with `=` and the
text behind it defines a macro of the same name, with the same parameters and so of the same arity, and with the same body.
This fails exactly for the texts that make a longer operator of `=`: with them nothing is defined. -/
theorem ofDefinition_agrees_with_directive {header text : Text} {d : Directive} {name : Token}
    {params : Option (List Token)} {body : List Token} (hheader : IsHeader header)
    (htext : (Lexing.ofText text).ending = .finished)
    (hending : (Lexing.ofText (directiveText header text)).ending = .finished)
    (hparse : Directive.parse (Lexing.ofText (directiveText header text)).tokens = .ok d)
    (haction : d.action = .define name params body)
    (hbody : body.map Token.lexeme = (Lexing.ofText text).tokens.map Token.lexeme) :
    ((∀ tail ∈ Scan.equalsTails, ¬ tail.toList <+: text.toList) →
        ∃ m m', ofDefinition (header ++ "=" ++ text) = .ok m ∧ make name params body = .ok m' ∧ m.name = m'.name ∧
          m.params = m'.params ∧ m.body.map Token.lexeme = m'.body.map Token.lexeme) ∧
      ((∃ tail ∈ Scan.equalsTails, tail.toList <+: text.toList) → ∀ m, ofDefinition (header ++ "=" ++ text) ≠ .ok m) := by
  obtain ⟨name₀, ps, params₀, gap, hheader⟩ := hheader
  refine ⟨fun hno => ?_, fun hruns => hheader.ofDefinition_ne_ok (Scan.runsOn_equals_iff.2 hruns)⟩
  obtain ⟨hname, hparams⟩ := hheader.lexeme_of_parse hending hparse haction
  have hends : ¬ Scan.RunsOn ("=" : Text).toList text.toList := by
    intro hruns
    obtain ⟨tail, htail, hbegins⟩ := Scan.runsOn_equals_iff.1 hruns
    exact hno tail htail hbegins
  obtain ⟨name₁, params₁, body₁, hname₁, hparams₁, hbody₁, hdefines⟩ := hheader.exists_ofDefinition htext hends
  obtain ⟨m, m', hm, hm', hsameName, hsameParams, hbodies⟩ := exists_make_of_lexemes body₁ body
    (hheader.isReadable hname₁) (hname₁.trans hname.symm) (hparams₁.trans hparams.symm)
  refine ⟨m, m', hdefines m hm, hm', hsameName, hsameParams, ?_⟩
  rw [hbodies.1, hbodies.2, hbody₁, hbody]

/-- A body with operators that start with `=` and with brackets that are not balanced. -/
theorem ofDefinition_agrees_with_directive_unbalanced :
    let name := placed .atom "f" 8
    let params := [placed .var "X" 10, placed .var "Y" 12]
    let body := [placed .var "X" 16 true, placed .operator "==" 18 true, placed .punctuator ")" 21 true, placed .var "Y" 22]
    ∃ d, Directive.parse (Lexing.ofText "-define(f(X,Y), X == )Y).").tokens = .ok d ∧
      d.action = .define name (some params) body ∧
      ∃ m m', ofDefinition "f(X,Y)=X == )Y" = .ok m ∧ make name (some params) body = .ok m' ∧ m.name = m'.name ∧
        m.params = m'.params ∧ m.body.map Token.lexeme = m'.body.map Token.lexeme := by
  intro name params body
  have hheader : IsHeader "f(X,Y)" := by
    have hlist : Params [placed .punctuator "(" 1, placed .var "X" 2, placed .punctuator "," 3, placed .var "Y" 4,
        placed .punctuator ")" 5] (some _) :=
      .some (.cons rfl (.cons rfl rfl (.last rfl rfl)) (by decide))
    exact isHeader_of_tokens (by decide +kernel) (by decide +kernel : _ = placed .atom "f" 0 :: _) (.inl rfl) hlist
      (by decide)
  have hparse : Directive.parse (Lexing.ofText (directiveText "f(X,Y)" "X == )Y")).tokens =
      .ok ⟨(Lexing.ofText (directiveText "f(X,Y)" "X == )Y")).tokens, .define name (some params) body⟩ := by
    decide +kernel
  refine ⟨_, hparse, rfl, ?_⟩
  exact (ofDefinition_agrees_with_directive hheader (by decide +kernel) (by decide +kernel) hparse rfl
    (by decide +kernel)).1 (by decide +kernel)

/-- A directive defines a macro that stands for a binary, but the text with the same header and body defines nothing. -/
theorem binary_definition_rejected :
    let body := [placed .operator "<<" 11 true, placed .integer "1" 13, placed .operator ">>" 14]
    (∃ ts, Directive.parse (Lexing.ofText (directiveText "X" "<<1>>")).tokens =
        .ok ⟨ts, .define (placed .var "X" 8) none body⟩) ∧
      body.map Token.lexeme = (Lexing.ofText "<<1>>").tokens.map Token.lexeme ∧
      ofDefinition "X=<<1>>" =
        .error (.diagnose (.invalidDefinition "X=<<1>>" (.parsing (.expectedText "=" "=<")))) := by
  intro body
  refine ⟨⟨(Lexing.ofText (directiveText "X" "<<1>>")).tokens, ?_⟩, ?_, ?_⟩
  · decide +kernel
  · decide +kernel
  · decide +kernel

end Macro

end ErlangMacros
