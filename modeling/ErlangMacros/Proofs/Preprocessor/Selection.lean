import ErlangMacros.Proofs.Preprocessor.Suppression

/-!
# The branch that is selected

A conditional selects one of two branches, and the other one is as if it were not there.  What is read before the
conditional and what is read of the selected branch are whole forms, and a run over these forms alone reaches its end;
so the run over the conditional goes the same way through them (`Resumes.behind`).  The rest of the conditional leaves
nothing behind (`Stands.select`).  From there on both runs stand before the same tokens, so that they agree in what they
emit and in what comes of them (`conditional_selects`).
-/

namespace ErlangMacros

namespace Preprocessor

open Token (loose symbol operator atom var)

variable {w : World} {p p' q q' s s' : Preprocessor} {ts us x y : List Token} {c : Conditional.Stack}

/-! ### Ends of runs -/

/-- A run ends when no conditional is open, and nothing changes then but the reader. -/
theorem step_finish (h : (step w q).outcome = .finish) :
    q.conditions = {} ∧ ∃ r, (step w q).state = { q with reader := r } := by
  rcases hread : q.reader.read with ⟨t | _ | e, r⟩
  · exact absurd h (outcome_step_ne_finish hread)
  · simp only [step, hread] at h ⊢
    rcases hframes : q.conditions with ⟨_ | ⟨f, fs⟩⟩ <;> rw [hframes] at h
    · exact ⟨rfl, r, rfl⟩
    · cases h
  · simp only [step, hread] at h
    cases h

/-- Input that goes on after the end of a run, to an end of its own. -/
structure Resumes (w : World) (q : Preprocessor) (x ts : List Token) (q' : Preprocessor) : Prop where
  isDrained : q.IsDrained
  isComplete : IsComplete x
  includes : x.IsChain fun t u => startsInclude t u = false
  emits : ∃ s, Stands q x {} true s ∧ s.IsSound ∧ Emits w s ts q'
  finish : (step w q').outcome = .finish

theorem Stands.completes (h : Stands q x {} true s) (hq : q.IsDrained) (hs : s.IsSound) (hx : IsComplete x)
    (hincludes : x.IsChain fun t u => startsInclude t u = false) : s.Completes ∨ s.IsDrained := by
  obtain @⟨reader, directives, hreader⟩ := h
  have houter : reader.inclusion.outer = [] := hreader.inclusion.outer_eq_nil hq.reader.outer_eq
  have hending : reader.inclusion.current.stream.ending = .finished :=
    hreader.inclusion.current.ending_eq.trans hq.reader.ending_eq
  have hremaining : reader.inclusion.current.remaining = x := by
    rw [hreader.inclusion.current.remaining_eq, hq.reader.remaining_eq, List.nil_append]
  rcases hlast : x.getLast? with _ | stop
  · obtain rfl : x = [] := List.getLast?_eq_none_iff.1 hlast
    exact .inr ⟨⟨hreader.frames_eq.trans hq.reader.frames_eq, houter, hremaining, hending,
      hreader.depth_eq.trans hq.reader.depth_eq, hreader.callSite_eq.trans hq.reader.callSite_eq⟩, rfl⟩
  · refine .inl ⟨hs, ⟨houter, hending, stop, ?_, hx stop hlast⟩, ?_⟩
    · rw [hremaining]
      exact hlast
    · rw [Reader.remaining_alone houter, hremaining]
      exact hincludes

/-- Of two states that stand before the same tokens, one with more of them, the other one goes on with the rest. -/
theorem Stands.rest (h : Stands q x {} true s) (h' : Stands q (x ++ ts) c true s') : s.Embeds ts c.frames s' := by
  obtain ⟨hreader⟩ := h
  obtain ⟨hreader'⟩ := h'
  exact .mk (hreader.rest hreader') rfl

/-- The input goes the same way with more input behind and conditionals around it that hold. -/
theorem Resumes.behind (h : Resumes w q x us q') (hs : Stands q (x ++ ts) c true s) (hc : c.active = true) :
    ∃ s', Emits w s us s' ∧ Stands q' ts c true s' ∧ q'.IsDrained := by
  obtain ⟨s₀, hs₀, hsound, hemits⟩ := h.emits
  have hcomplete := hs₀.completes h.isDrained hsound h.isComplete h.includes
  obtain ⟨s', hemits', hembeds, hdrained⟩ := (hs₀.rest hs).emits_of_completes hcomplete hc hemits h.finish
  refine ⟨s', hemits', ?_, hdrained⟩
  obtain @⟨reader, conditions, directives, hreader, hconditions⟩ := hembeds
  obtain rfl : conditions = c := by
    rw [(step_finish h.finish).1] at hconditions
    exact congrArg Conditional.Stack.mk hconditions
  rw [← hdrained.formStart_eq]
  exact .mk hreader

theorem Emits.isSound (h : Emits w p ts p') (hp : p.IsSound) : p'.IsSound := by
  induction h with
  | refl => exact hp
  | emit hemit _ ih => exact ih (hp.step (by rw [hemit]; rfl))
  | proceed hproceed _ ih => exact ih (hp.step (by rw [hproceed]; rfl))

/-! ### Conditionals -/

/-- A form is a conditional, and parsed as such. -/
structure IsParsedAs (form : List Token) (d : Directive) : Prop where
  isForm : IsForm form
  isDirective : isDirective form = true
  isConditional : isConditional form = true
  parse_eq : Directive.parse form = .ok d

private theorem isParsedAs_of_keyword {k : Keyword} {hyphen word stop : Token} {middle : List Token} {d : Directive}
    (hk : k.isConditional = true) (hhyphen : hyphen.lexeme = ⟨.operator, "-"⟩) (hword : word.lexeme = (.atom, k.text))
    (hmiddle : ∀ t ∈ middle, t.isSymbol "." = false) (hstop : stop.lexeme = ⟨.punctuator, "."⟩)
    (hparse : Directive.parse (hyphen :: word :: (middle ++ [stop])) = .ok d) :
    IsParsedAs (hyphen :: word :: (middle ++ [stop])) d := by
  obtain ⟨hhyphenKind, hhyphenText⟩ := Prod.mk.inj hhyphen
  obtain ⟨hwordKind, hwordText⟩ := Prod.mk.inj hword
  obtain ⟨hstopKind, hstopText⟩ := Prod.mk.inj hstop
  refine ⟨⟨hyphen :: word :: middle, stop, rfl, ?_, ?_⟩, ?_, ?_, hparse⟩
  · simp [Token.isSymbol, hstopKind, hstopText, Kind.isSymbol]
  · refine List.forall_mem_cons.2 ⟨?_, List.forall_mem_cons.2 ⟨?_, hmiddle⟩⟩
    · simp [Token.isSymbol, hhyphenText]
    · simp [Token.isSymbol, hwordKind, Kind.isSymbol]
  · simp [Preprocessor.isDirective, startsDirective, Token.isSymbol, hhyphenKind, hhyphenText, Kind.isSymbol, hwordKind,
      hwordText, Keyword.ofText?_text]
  · simp [Preprocessor.isConditional, hwordText, Keyword.ofText?_text, hk]

private theorem isParsedAs_bare {k : Keyword} {action : Action} {form : List Token}
    (hconditional : k.isConditional = true) (hk : Parser.ofKeyword k = Parser.bareDirective k.text action)
    (h : form.map Token.lexeme = (bare k).map Token.lexeme) : IsParsedAs form ⟨form, action⟩ := by
  obtain ⟨hyphen, word, stop, rfl, hhyphen, hword, hstop⟩ := exists_of_bare h
  have hparse := parse_bare hk hhyphen hword hstop
  exact isParsedAs_of_keyword hconditional hhyphen hword (List.forall_mem_nil _) hstop hparse

private theorem isParsedAs_opening {negated : Bool} {name : Token} {form : List Token}
    (hname : name.kind = .atom ∨ name.kind = .var)
    (h : form.map Token.lexeme = (opening negated name).map Token.lexeme) :
    ∃ name', name'.lexeme = name.lexeme ∧ IsParsedAs form ⟨form, .opens negated name'⟩ := by
  obtain ⟨hyphen, word, bracket, name', bracket', stop, rfl, hhyphen, hword, hbracket, hname', hbracket', hstop⟩ :=
    exists_of_opening h
  have hkind : name'.kind = name.kind := congrArg Prod.fst hname'
  rw [← hkind] at hname
  have hmiddle : ∀ t ∈ [bracket, name', bracket'], t.isSymbol "." = false := by
    have hno : name'.isSymbol "." = false := by
      rcases hname with hname | hname <;> simp [Token.isSymbol, hname, Kind.isSymbol]
    have hopen := Token.isSymbol_congr (u := { kind := .punctuator, text := "(" }) hbracket "."
    have hclose := Token.isSymbol_congr (u := { kind := .punctuator, text := ")" }) hbracket' "."
    simpa using ⟨hopen, hno, hclose⟩
  have hconditional : (Keyword.opens negated).isConditional = true := by cases negated <;> rfl
  have hk : Parser.ofKeyword (.opens negated) = Parser.nameDirective (Keyword.opens negated).text (.opens negated) := by
    cases negated <;> rfl
  exact ⟨name', hname', isParsedAs_of_keyword hconditional hhyphen hword hmiddle hstop
    (parse_name hk hhyphen hword hbracket hname hbracket' hstop)⟩

/-- A conditional behind takes one step. -/
theorem Stands.step_parsed {form : List Token} {d : Directive} {c' : Conditional.Stack} (hq : q.IsDrained)
    (h : Stands q (form ++ ts) c true s) (hform : IsParsedAs form d)
    (hevaluate : ∀ p : Preprocessor, p.conditions = c → p.macros = q.macros →
      evaluate w p d = .changed { p with conditions := c' }) :
    ∃ s', Emits w s [] s' ∧ Stands q ts c' true s' := by
  obtain ⟨hproceed, hs⟩ :=
    h.step_conditional hq.reader hform.isForm hform.isDirective hform.isConditional hform.parse_eq hevaluate
  exact ⟨_, .silent hproceed, hs⟩

section

variable {opened turned closed : List Token} {name : Token} {n : Text} {negated : Bool} {f : Conditional.Frame}
  {fs : List Conditional.Frame}

theorem Stands.opens (hq : q.IsDrained) (h : Stands q (opened ++ ts) c true s)
    (hopened : opened.map Token.lexeme = (opening negated name).map Token.lexeme)
    (hname : name.kind = .atom ∨ name.kind = .var) (hn : name.nameValue = .ok n) :
    ∃ position s', Emits w s [] s' ∧ Stands q ts (c.push (q.macros.isDefined n != negated) position) true s' := by
  obtain ⟨name', hlexeme, hform⟩ := isParsedAs_opening hname hopened
  refine ⟨some (Directive.position ⟨opened, .opens negated name'⟩), h.step_parsed hq hform fun p hp hmacros => ?_⟩
  rw [evaluate_opens rfl ((Token.nameValue_congr hlexeme).trans hn), hp, hmacros]

private theorem Stands.turns (hq : q.IsDrained) (h : Stands q (turned ++ ts) ⟨f :: fs⟩ true s)
    (hturned : turned.map Token.lexeme = (bare .otherwise).map Token.lexeme) (hf : f.elseSeen = false) :
    ∃ s', Emits w s [] s' ∧ Stands q ts ⟨{ f with elseSeen := true, condition := !f.condition } :: fs⟩ true s' := by
  refine h.step_parsed hq (isParsedAs_bare rfl rfl hturned) fun p hp _ => ?_
  simp [evaluate, hp, Conditional.Stack.flip, hf, evalConditional]

theorem Stands.closes (hq : q.IsDrained) (h : Stands q (closed ++ ts) ⟨f :: fs⟩ true s)
    (hclosed : closed.map Token.lexeme = (bare .endif).map Token.lexeme) :
    ∃ s', Emits w s [] s' ∧ Stands q ts ⟨fs⟩ true s' := by
  refine h.step_parsed hq (isParsedAs_bare rfl rfl hclosed) fun p hp _ => ?_
  simp [evaluate, hp, Conditional.Stack.close, evalConditional]

/-- Tokens that are written as a conditional with two branches. -/
inductive Branches (negated : Bool) (name : Token) (first second : List Token) : List Token → Prop where
  | mk {opened turned closed : List Token} (opens : opened.map Token.lexeme = (opening negated name).map Token.lexeme)
      (turns : turned.map Token.lexeme = (bare .otherwise).map Token.lexeme)
      (closes : closed.map Token.lexeme = (bare .endif).map Token.lexeme) :
      Branches negated name first second (opened ++ first ++ turned ++ second ++ closed)

/-- The branch that a conditional selects, and the other one. -/
def selection (negated : Bool) (n : Text) (macros : MacroTable) (first second : List Token) :
    List Token × List Token :=
  if macros.isDefined n != negated then (first, second) else (second, first)

/-- A conditional does what the branch does that it selects. -/
theorem Stands.select {first second selected other conditional rest : List Token}
    (hconditional : Branches negated name first second conditional) (hname : name.kind = .atom ∨ name.kind = .var)
    (hn : name.nameValue = .ok n) (hs : Stands q (conditional ++ rest) {} true s)
    (hselection : selection negated n q.macros first second = (selected, other))
    (hselected : Resumes w q selected us q') (hother : IsComplete other) (hnests : Nests other) :
    ∃ s', Emits w s us s' ∧ Stands q' rest {} true s' := by
  obtain ⟨hopens, hturns, hcloses⟩ := hconditional
  have hq := hselected.isDrained
  simp only [List.append_assoc] at hs
  obtain ⟨position, s₁, hemits₁, hs₁⟩ := hs.opens (w := w) hq hopens hname hn
  unfold selection at hselection
  cases hcondition : q.macros.isDefined n != negated <;> rw [hcondition] at hselection hs₁ <;> cases hselection
  · obtain ⟨s₂, hemits₂, hs₂⟩ := hs₁.skip (w := w) hq.reader rfl hother hnests
    obtain ⟨s₃, hemits₃, hs₃⟩ := hs₂.turns (w := w) hq hturns rfl
    obtain ⟨s₄, hemits₄, hs₄, hq'⟩ := hselected.behind hs₃ rfl
    obtain ⟨s₅, hemits₅, hs₅⟩ := hs₄.closes (w := w) hq' hcloses
    refine ⟨s₅, ?_, hs₅⟩
    simpa using hemits₁.trans (hemits₂.trans (hemits₃.trans (hemits₄.trans hemits₅)))
  · obtain ⟨s₂, hemits₂, hs₂, hq'⟩ := hselected.behind hs₁ rfl
    obtain ⟨s₃, hemits₃, hs₃⟩ := hs₂.turns (w := w) hq' hturns rfl
    obtain ⟨s₄, hemits₄, hs₄⟩ := hs₃.skip (w := w) hq'.reader rfl hother hnests
    obtain ⟨s₅, hemits₅, hs₅⟩ := hs₄.closes (w := w) hq' hcloses
    refine ⟨s₅, ?_, hs₅⟩
    simpa using hemits₁.trans (hemits₂.trans (hemits₃.trans (hemits₄.trans hemits₅)))

end

/-! ### Runs over tokens -/

/-- The tokens are preprocessed to an end. -/
def Preprocesses (w : World) (options : Options) (finder : Finder) (tokens : List Token) (r : Run) : Prop :=
  r.ending.IsDefinite ∧ ∃ p es fuel, start { tokens } options finder = (.ok p, es) ∧ p.run w fuel = r

/-- Tokens that are emitted first when tokens are preprocessed. -/
def EmitsFirst (w : World) (options : Options) (finder : Finder) (tokens ts : List Token) : Prop :=
  ∃ p es q, start { tokens } options finder = (.ok p, es) ∧ Emits w p ts q

/-- Two runs agree in what they emit, how they end, and in all they leave behind but the directives. -/
structure Run.Agrees (r r' : Run) : Prop where
  tokens_eq : r'.tokens = r.tokens
  ending_eq : r'.ending = r.ending
  macros_eq : r'.state.macros = r.state.macros
  moduleName_eq : r'.state.moduleName = r.state.moduleName
  warnings_eq : r'.state.warnings = r.state.warnings
  calls_eq : r'.state.calls = r.state.calls

/-- What is emitted for the first tokens, and what comes of them, is so for the others too. -/
structure Refines (w : World) (options : Options) (finder : Finder) (tokens tokens' : List Token) : Prop where
  emitsFirst : ∀ ts, EmitsFirst w options finder tokens ts → EmitsFirst w options finder tokens' ts
  preprocesses : ∀ r, Preprocesses w options finder tokens r →
    ∃ r', Preprocesses w options finder tokens' r' ∧ r.Agrees r'

variable {options : Options} {finder : Finder}

/-- Two runs that come to the same point have the same to tell from there on. -/
theorem refines_of_emits {tokens tokens' : List Token} {es es' : List Event}
    (hstart : start { tokens } options finder = (.ok p, es))
    (hstart' : start { tokens := tokens' } options finder = (.ok p', es')) (h : Emits w p us s)
    (h' : Emits w p' us s') (hembeds : s.Embeds [] [] s') :
    Refines w options finder tokens tokens' where
  emitsFirst := by
    rintro ts ⟨p₁, es₁, q, hstart₁, hemits⟩
    cases hstart.symm.trans hstart₁
    rcases h.linear hemits with ⟨vs, rfl, hrest⟩ | ⟨vs, rfl, -⟩
    · obtain ⟨q', hrest', -⟩ := hembeds.emits hrest
      exact ⟨p', es', q', hstart', h'.trans hrest'⟩
    · obtain ⟨q', hfirst⟩ := h'.init
      exact ⟨p', es', q', hstart', hfirst⟩
  preprocesses := by
    rintro r ⟨hdefinite, p₁, es₁, fuel, hstart₁, rfl⟩
    cases hstart.symm.trans hstart₁
    obtain ⟨q, hemits, hending, hstate⟩ := exists_emits_of_run (isSound_start hstart).done_eq hdefinite
    obtain ⟨vs, htokens, hrest⟩ := h.toEnd hemits hending
    obtain ⟨q', hrest', hembeds'⟩ := hembeds.emits hrest
    have hstep := hembeds'.step (w := w) rfl (.inl ⟨rfl, rfl⟩)
    have hending' : (step w q').outcome.ending? = some (p.run w fuel).ending := by rw [hstep.outcome_eq, hending]
    obtain ⟨bound, es, hrun⟩ := (h'.trans hrest').run_eq hending' hdefinite (isSound_start hstart').done_eq
    refine ⟨⟨us ++ vs, (p.run w fuel).ending, (step w q').state.close, es⟩,
      ⟨hdefinite, p', es', bound, hstart', hrun bound le_rfl⟩, ?_⟩
    have hlast := hstep.state
    generalize (step w q').state = last at hlast ⊢
    cases hlast
    refine ⟨htokens.symm, rfl, ?_, ?_, ?_, ?_⟩ <;> rw [hstate] <;> rfl

/-- All inputs start alike. -/
theorem exists_stands_of_start {tokens : List Token} {es : List Event}
    (h : start { tokens } options finder = (.ok p, es)) :
    ∃ q : Preprocessor, q.IsDrained ∧
      ∀ ts, ∃ p', start { tokens := ts } options finder = (.ok p', es) ∧ Stands q ts {} true p' := by
  unfold start at h ⊢
  rcases hall : defineAll {} options.defines with ⟨f | macros, es'⟩ <;> rw [hall] at h
  · cases (Prod.mk.inj h).1
  cases h
  refine ⟨{ initial { tokens := [] } options finder with macros }, ⟨⟨rfl, rfl, rfl, rfl, rfl, rfl⟩, rfl⟩, fun ts =>
    ⟨_, rfl, ?_⟩⟩
  exact .mk ⟨rfl, ⟨rfl, ⟨rfl, rfl, rfl, .inr rfl⟩, .nil, .inr rfl⟩, rfl, rfl⟩

/-- A run that stops has gone a way to its end. -/
theorem exists_finish_of_run {fuel : Nat} (hp : p.IsSound) (hstop : (p.run w fuel).ending = .stop) :
    ∃ q, Emits w p (p.run w fuel).tokens q ∧ (step w q).outcome = .finish ∧
      q.macros = (p.run w fuel).state.macros := by
  have hdefinite : (p.run w fuel).ending.IsDefinite := by
    rw [hstop]
    trivial
  obtain ⟨q, hemits, hending, hstate⟩ := exists_emits_of_run hp.done_eq hdefinite
  have hfinish := Outcome.eq_finish (hending.trans (congrArg some hstop))
  obtain ⟨-, r, hlast⟩ := step_finish hfinish
  refine ⟨q, hemits, hfinish, ?_⟩
  rw [hstate, hlast]
  rfl

/-- A conditional does what the branch does that it selects.  What comes before the conditional and the selected branch
are whole forms that open no file and can be preprocessed without error.  Of the other branch only the conditionals
count, which have to be properly nested. -/
theorem conditional_selects {before first second selected other conditional rest : List Token} {negated : Bool}
    {name : Token} {n : Text} {r r' : Run} (hname : name.kind = .atom ∨ name.kind = .var)
    (hn : name.nameValue = .ok n) (hconditional : Branches negated name first second conditional)
    (hbefore : IsComplete before) (hfirst : IsComplete first) (hsecond : IsComplete second)
    (hrun : Preprocesses w options finder before r) (hstop : r.ending = .stop)
    (hselection : selection negated n r.state.macros first second = (selected, other))
    (hrun' : Preprocesses w options finder (before ++ selected) r') (hstop' : r'.ending = .stop)
    (hincludes : before.IsChain fun t u => startsInclude t u = false)
    (hincludes' : selected.IsChain fun t u => startsInclude t u = false) (hnests : Nests other) :
    Refines w options finder (before ++ conditional ++ rest) (before ++ selected ++ rest) ∧
      Refines w options finder (before ++ selected ++ rest) (before ++ conditional ++ rest) := by
  obtain ⟨-, p, es, fuel, hstart, rfl⟩ := hrun
  obtain ⟨-, p', es', fuel', hstart', rfl⟩ := hrun'
  obtain ⟨q₀, hq₀, hstands⟩ := exists_stands_of_start hstart
  obtain ⟨p₁, hstart₁, hp₁⟩ := hstands (before ++ (conditional ++ rest))
  obtain ⟨p₂, hstart₂, hp₂⟩ := hstands (before ++ (selected ++ rest))
  have hstate {ts : List Token} {p : Preprocessor} {es : List Event}
      (h : start { tokens := ts } options finder = (.ok p, es)) : Stands q₀ ts {} true p := by
    obtain ⟨_, hsame, hp⟩ := hstands ts
    cases h.symm.trans hsame
    exact hp
  have hcomplete : IsComplete selected ∧ IsComplete other := by
    unfold selection at hselection
    split at hselection <;> cases hselection
    · exact ⟨hfirst, hsecond⟩
    · exact ⟨hsecond, hfirst⟩
  -- the tokens before the conditional lead to a state `q₁`, and the selected branch from there to `q₂`
  obtain ⟨q₁, hemits₁, hfinish₁, hmacros⟩ := exists_finish_of_run (isSound_start hstart) hstop
  have hresumes₁ : Resumes w q₀ before (p.run w fuel).tokens q₁ :=
    ⟨hq₀, hbefore, hincludes, ⟨p, hstate hstart, isSound_start hstart, hemits₁⟩, hfinish₁⟩
  rw [← hmacros] at hselection
  obtain ⟨q₂, us, hresumes₂⟩ : ∃ q₂ us, Resumes w q₁ selected us q₂ := by
    obtain ⟨s, hemits, hs, hq₁⟩ := hresumes₁.behind (hstate hstart') rfl
    obtain ⟨q₂, hemits₂, hfinish₂, -⟩ := exists_finish_of_run (isSound_start hstart') hstop'
    obtain ⟨us, -, hrest⟩ := hemits.toEnd hemits₂ (e := .stop) (by rw [hfinish₂]; rfl)
    exact ⟨q₂, us, hq₁, hcomplete.1, hincludes', ⟨s, hs, hemits.isSound (isSound_start hstart'), hrest⟩, hfinish₂⟩
  -- with the rest behind, both runs come to the state `q₂` before the rest
  obtain ⟨s₁, hfirst₁, hs₁, -⟩ := hresumes₁.behind hp₁ rfl
  obtain ⟨s₂, hfirst₂, hs₂, -⟩ := hresumes₁.behind hp₂ rfl
  obtain ⟨s₁', hsecond₁, hs₁'⟩ := hs₁.select hconditional hname hn hselection hresumes₂ hcomplete.2 hnests
  obtain ⟨s₂', hsecond₂, hs₂', -⟩ := hresumes₂.behind hs₂ rfl
  have hembeds : s₁'.Embeds [] [] s₂' := hs₁'.rest (by rwa [List.append_nil])
  have hembeds' : s₂'.Embeds [] [] s₁' := hs₂'.rest (by rwa [List.append_nil])
  rw [List.append_assoc, List.append_assoc]
  exact ⟨refines_of_emits hstart₁ hstart₂ (hfirst₁.trans hsecond₁) (hfirst₂.trans hsecond₂) hembeds,
    refines_of_emits hstart₂ hstart₁ (hfirst₂.trans hsecond₂) (hfirst₁.trans hsecond₁) hembeds'⟩

/-- The macro `D` is defined before a conditional on it, and the second branch is skipped with a call that is never
closed, a definition without a name and a conditional of its own. -/
theorem conditional_selects_defined :
    let hyphen := operator "-"
    let question := operator "?"
    let name := var "D"
    let before := [hyphen, atom "define", symbol "(", name, symbol ",",
      loose .integer "1", symbol ")", symbol "."]
    let first := [question, name, symbol "."]
    let second := [question, name, symbol "(", symbol "."] ++ [hyphen, atom "define", symbol "."] ++
      opening true name ++ bare .otherwise ++ bare .endif
    let conditional := opening false name ++ first ++ bare .otherwise ++ second ++ bare .endif
    let w : World := { workingDirectory := ⟨.root, []⟩ }
    let preprocessed (tokens : List Token) := (initial { tokens } {} (.fixed [])).run w 9
    let r := preprocessed before
    let r' := preprocessed (before ++ first)
    Preprocesses w {} (.fixed []) before r ∧ r.ending = .stop ∧
      selection false "D" r.state.macros first second = (first, second) ∧
      Preprocesses w {} (.fixed []) (before ++ first) r' ∧ r'.ending = .stop ∧ Nests second ∧
      ∀ rest, Refines w {} (.fixed []) (before ++ conditional ++ rest) (before ++ first ++ rest) ∧
        Refines w {} (.fixed []) (before ++ first ++ rest) (before ++ conditional ++ rest) := by
  intro hyphen question name before first second conditional w preprocessed r r'
  have hstop : r.ending = .stop := by decide +kernel
  have hstop' : r'.ending = .stop := by decide +kernel
  have hselection : selection false "D" r.state.macros first second = (first, second) := by decide +kernel
  have hnests : Nests second := by decide +kernel
  have hrun : Preprocesses w {} (.fixed []) before r := ⟨by rw [hstop]; trivial, _, _, 9, rfl, rfl⟩
  have hrun' : Preprocesses w {} (.fixed []) (before ++ first) r' := ⟨by rw [hstop']; trivial, _, _, 9, rfl, rfl⟩
  refine ⟨hrun, hstop, hselection, hrun', hstop', hnests, fun rest => ?_⟩
  refine conditional_selects (.inr rfl) rfl ⟨rfl, rfl, rfl⟩ ?_ ?_ ?_ hrun hstop hselection hrun' hstop' ?_ ?_ hnests
  all_goals decide +kernel

end Preprocessor

end ErlangMacros
