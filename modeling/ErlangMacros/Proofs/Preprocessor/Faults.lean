import ErlangMacros.Proofs.Directive.Diagnosis
import ErlangMacros.Proofs.Preprocessor.Failure
import ErlangMacros.Proofs.Preprocessor.Lexemes
import ErlangMacros.Proofs.Reader.LookAhead
import ErlangMacros.Proofs.Token.Readable

/-!
# What a step fails with

The parts of a run rely on each other: a name that is looked up has a value, a macro is given as many arguments as it
takes, what is parsed as a directive starts like one, and the line that a directive sets is a number.  Over the tokens
of texts this is never disappointed, also if a text goes on for ever (`Token.IsReadable`).

So a step fails with an error of the input, or because a source goes on for ever or is broken off at a surrogate, or
because it asks for a file that cannot be searched for or is no text (`fails_step`).  A run starts unless there is an
error in a definition, or the text of one goes on for ever or is broken off (`fault_of_start`).
-/

namespace ErlangMacros

/-- A macro can be given as many arguments as it takes. -/
theorem Macro.exists_replace {m : Macro} {args : Option (List (List Token))}
    (h : m.arity = args.map fun as => (as.length : Int)) : ∃ tokens, m.replace args = .ok tokens := by
  unfold arity at h
  unfold replace
  rcases hparams : m.params with _ | params <;> rw [hparams] at h <;> rcases args with _ | args
  · exact ⟨_, rfl⟩
  · cases h
  · cases h
  · have hlength : args.length = params.length := (Int.ofNat.inj (Option.some.inj h)).symm
    exact ⟨_, if_pos hlength⟩

/-! ### Texts that are broken off -/

/-- The lexing of a text is broken off at the first surrogate of the text. -/
theorem Lexing.surrogate_of_breaksOff {text : Text} {filename : Option Text}
    (h : (ofText text filename).ending.breaksOff = true) :
    ∃ front n behind, text.toList = front ++ .surrogate n :: behind ∧ (∀ c ∈ front, c.isChar = true) ∧
      (ofText text filename).ending = .failed ⟨.unencodable, coordinates filename front⟩ := by
  obtain ⟨before, rest, htext, -, hends⟩ := lexing_layout text filename
  cases hending : (ofText text filename).ending with
  | finished | repeating t =>
    rw [hending] at h
    cases h
  | failed e =>
    rw [hending] at h hends
    have hcause : e.cause = .unencodable := of_decide_eq_true h
    cases hends with
    | @failed _ between _ hchar hposition hsurrogate =>
      obtain ⟨n, behind, hrest⟩ := hsurrogate hcause
      refine ⟨before ++ between, n, behind, ?_, hchar, ?_⟩
      · rw [htext, hrest, List.append_assoc]
      · rw [← hcause, ← hposition]

/-- A text without surrogates is not broken off. -/
theorem Lexing.breaksOff_eq_false {text : Text} (h : text.isEncodable = true) (filename : Option Text) :
    (ofText text filename).ending.breaksOff = false := by
  refine Bool.eq_false_of_not_eq_true fun hbreaks => ?_
  obtain ⟨front, n, behind, htext, -⟩ := surrogate_of_breaksOff hbreaks
  have hmem : .surrogate n ∈ text.toList := by
    rw [htext]
    exact List.mem_append_right _ List.mem_cons_self
  cases List.all_eq_true.1 h _ hmem

/-- The text of a file holds no surrogate. -/
theorem World.isEncodable_of_readText {w : World} {path text : Text} (h : w.readText path = .ok text) :
    text.isEncodable = true := by
  unfold readText at h
  split at h
  · cases h
  split at h
  · cases h
  split at h
  · cases h
  split at h
  · cases h
  split at h
  · cases h
  · split at h <;> cases h
    simp [Text.isEncodable]

/-! ### Definitions -/

private theorem Parser.failsWith_definition : FailsWith IsRejected definition := by
  refine .bind (failsWith_ofClass _) fun name => .bind .get fun c => ?_
  have hrest : ∀ params : Option (List Token), FailsWith IsRejected (do
      let c ← get
      if c.atEnd then return (name, params, [{ kind := .atom, text := "true", position := name.position }])
      else
        let _ ← exactly (.of .operator) "="
        return (name, params, (← get).rest)) := fun params =>
    .bind .get fun _ => .ite (.pure _) (.bind (failsWith_exactly _ _) fun _ => .bind .get fun _ => .pure _)
  exact .ite (.bind (failsWith_paramList.map _) hrest) (.bind (.pure _) hrest)

/-- How the text of a definition can be at fault: it goes on for ever, or is broken off. -/
def Fault.IsOfDefinition (f : Fault) : Prop :=
  f = .endless ∨ f = .unencodable

private theorem Macro.ofDefinition_fault {text : Text} {f : Fault} (h : ofDefinition text = .error (.fault f)) :
    f.IsOfDefinition := by
  unfold ofDefinition at h
  dsimp only at h
  split at h
  · split at h <;> cases h
    exact .inr rfl
  · cases h
    exact .inl rfl
  · rcases hparse : Parser.definition { tokens := (Lexing.ofText text).tokens } with ⟨name, params, body⟩ | ⟨e, c⟩ <;>
      rw [hparse] at h
    · obtain ⟨-, hname, -⟩ := Parser.yields_definition _ _ _ rfl hparse
      obtain ⟨n, hn⟩ := (Lexing.Gives.isReadable (.inl hname)).nameValue
      dsimp only at h
      rw [make, hn] at h
      cases h
    · obtain ⟨e, rfl⟩ := Parser.failsWith_definition _ _ _ hparse
      cases h

private theorem Preprocessor.fault_of_defineAll {macros : MacroTable} {texts : List Text} {f : Fault} {es : List Event}
    (h : defineAll macros texts = (.error (.fault f), es)) : f.IsOfDefinition := by
  induction texts generalizing macros es with
  | nil => cases h
  | cons text texts ih =>
    unfold defineAll at h
    split at h
    · next hdefinition =>
      cases h
      exact Macro.ofDefinition_fault hdefinition
    · split at h
      · cases h
      · obtain ⟨hrest, -⟩ := Prod.mk.inj h
        exact ih (Prod.ext hrest rfl)

theorem Preprocessor.fault_of_start {stream : Lexing} {options : Options} {finder : Finder} {f : Fault}
    {es : List Event} (h : start stream options finder = (.error (.fault f), es)) : f.IsOfDefinition := by
  unfold start at h
  rcases hall : defineAll {} options.defines with ⟨f' | macros, es'⟩ <;> rw [hall] at h <;> cases h
  exact fault_of_defineAll hall

/-! ### Looking before reading -/

/-- What is seen is read next, unless the source is exhausted. -/
theorem Inclusion.eq_of_peek {i i₁ i₂ : Inclusion} {t u : Token} (h : i.peek = (.token t, i₁))
    (hread : i₁.read false = (.token u, i₂)) : u = t := by
  unfold peek at h
  rcases hpeek : i.current.peek with ⟨v | _ | e, s⟩ <;> rw [hpeek] at h
  · cases h
    unfold Source.peek at hpeek
    rcases hnext : i.current.next with ⟨v | _ | e, s'⟩ <;> rw [hnext] at hpeek <;> cases hpeek
    cases hread
    rfl
  · -- nothing is read from an exhausted source
    obtain ⟨-, rfl⟩ := Prod.mk.inj h
    have hexhausted := Source.peek_of_isExhausted (Source.isExhausted_of_next (Source.next_of_peek_finished hpeek))
    rw [hpeek] at hexhausted
    have hfinished := s.next_fst_eq_finished_iff.2 hexhausted.2
    obtain ⟨hnext, -⟩ := Prod.mk.inj hread
    cases hfinished.symm.trans hnext
  · cases h

private theorem Reader.eq_of_peek {r r₁ r₂ : Reader} {t u : Token} (h : r.peek = (.token t, r₁))
    (hread : r₁.read false = (.token u, r₂)) : u = t := by
  unfold peek at h
  rcases hpop : popFrames r.frames with _ | ⟨v, f, fs⟩ <;> rw [hpop] at h
  · obtain ⟨hpeek, rfl⟩ := Prod.mk.inj h
    simp only [read, hpop] at hread
    exact Inclusion.eq_of_peek (Prod.ext hpeek rfl) (Prod.ext (Prod.mk.inj hread).1 rfl)
  · cases h
    simp only [read, hpop] at hread
    cases hread
    rfl

/-! ### Files that stop a run -/

namespace World

variable {w : World} {path : Text} {f : Fault}

/-- A file can be opened and is no text, or the path is none: it holds a null character, or a surrogate that stands for no
byte. -/
inductive Illegible (w : World) (path : Text) : Fault → Prop where
  | notText (read : w.readText path = .error (.notText path)) : Illegible w path (.notText path)
  | invalidPath (read : w.readText path = .error .invalidPath) : Illegible w path .invalidPath
  | unencodable (read : w.readText path = .error .unencodable) : Illegible w path .unencodable

/-- A file that is not read cannot be opened, or is illegible. -/
theorem illegible_of_readText (h : w.readText path = .error f) : (∃ e, f = .file e path) ∨ w.Illegible path f := by
  have hread := h
  unfold readText at h
  split at h
  · cases h
    exact .inr (.unencodable hread)
  split at h
  · cases h
    exact .inr (.invalidPath hread)
  split at h
  · cases h
    exact .inl ⟨_, rfl⟩
  split at h
  · cases h
    exact .inl ⟨_, rfl⟩
  split at h
  · cases h
    exact .inl ⟨_, rfl⟩
  · split at h <;> cases h
    exact .inr (.notText hread)

end World

/-- Why a file cannot be included, other than an error of the input: the search for it comes to no answer, or what it
finds is illegible. -/
inductive Finder.Faults (w : World) (finder : Finder) (library : Bool) (name : Text) (filename : Option Text) :
    Fault → Prop where
  | search {f : Fault} (find : (finder.find w library name (filename.map Path.directoryOf)).1 = .error f) :
      Faults w finder library name filename f
  | file {f : Fault} {file : Path}
      (find : (finder.find w library name (filename.map Path.directoryOf)).1 = .ok (some file))
      (illegible : w.Illegible file.toString f) : Faults w finder library name filename f

/-- The action that includes a file. -/
def Action.including (library : Bool) (path : Token) : Action :=
  if library then .includeLib path else .includeFile path

namespace Preprocessor

open Expansion

variable {w : World} {p q : Preprocessor} {t : Token} {f : Failure} {library : Bool} {name : Text}
  {filename : Option Text}

/-- The next step executes a directive that includes a file.  The source that it stands in has a file name, or none. -/
inductive Asks (p : Preprocessor) (library : Bool) (name : Text) : Option Text → Prop where
  | intro {hyphen path : Token} {r r' : Reader} {tokens : List Token} {d : Directive}
      (read : p.reader.read = (.token hyphen, r))
      (starts : (p.formStart && r.fromSource && hyphen.isSymbol "-") = true)
      (collect : collect r hyphen = (.ok (some tokens), r'))
      (executed : (p.conditions.active || isConditional tokens) = true) (parse : Directive.parse tokens = .ok d)
      (action : d.action = .including library path) (value : path.value = .ok name) :
      Asks p library name r'.inclusion.current.filename

private theorem outcome_include {path : Token} {position : Position} {g : Fault} (hvalue : path.value = .ok name)
    (h : p.finder.Faults w library name p.reader.inclusion.current.filename g) :
    (p.evalInclude w library path position).outcome = .fail (.fault g) := by
  unfold evalInclude
  rw [hvalue]
  dsimp only
  cases h with
  | search hfind =>
    rw [hfind]
    rfl
  | file hfind hillegible =>
    rw [hfind]
    dsimp only
    unfold enter
    cases hillegible with
    | notText hread | invalidPath hread | unencodable hread =>
      rw [hread]
      rfl

/-- Including a file fails with an error of the input otherwise. -/
theorem fails_include {path : Token} {position : Position} (hvalue : path.value = .ok name)
    (h : (p.evalInclude w library path position).outcome = .fail f) :
    f.IsReported ∨ ∃ g, f = .fault g ∧ p.finder.Faults w library name p.reader.inclusion.current.filename g := by
  unfold evalInclude at h
  rw [hvalue] at h
  dsimp only at h
  rcases hfind : (p.finder.find w library name (p.reader.inclusion.current.filename.map Path.directoryOf)).1
    with g | _ | file <;> rw [hfind] at h
  · cases h
    exact .inr ⟨g, rfl, .search hfind⟩
  · cases h
    exact .inl trivial
  · dsimp only [Step.after] at h
    unfold enter at h
    rcases hread : w.readText file.toString with g | text <;> simp only [hread] at h
    · rcases World.illegible_of_readText hread with ⟨e, rfl⟩ | hillegible
      · cases h
        exact .inl trivial
      · refine .inr ⟨g, ?_, .file hfind hillegible⟩
        cases hillegible <;> cases h <;> rfl
    · split at h <;> cases h
      exact .inl trivial

private theorem evaluate_including {d : Directive} {path : Token} (h : d.action = .including library path) :
    evaluate w p d = p.evalInclude w library path d.position := by
  unfold evaluate
  rw [h]
  cases library <;> rfl

/-- The step evaluates the directive that includes the file. -/
theorem step_of_asks (h : p.Asks library name filename) (w : World) :
    ∃ (r : Reader) (d : Directive) (path : Token) (told : List Event), d.action = .including library path ∧
      path.value = .ok name ∧ r.inclusion.current.filename = filename ∧
      step w p =
        (evaluate w { p with reader := r, formStart := true, directives := d :: p.directives } d).after told := by
  obtain @⟨hyphen, path, r, r', tokens, d, hread, hstarts, hcollect, hexecuted, hparse, haction, hvalue⟩ := h
  refine ⟨r', d, path, leaving p.reader r, haction, hvalue, rfl, ?_⟩
  rw [step_token hread]
  unfold take
  dsimp only
  rw [if_pos hstarts, hcollect]
  dsimp only
  unfold directive
  dsimp only
  rw [if_pos hexecuted, hparse]

/-- Evaluating a directive executes no other. -/
theorem directives_evaluate (d : Directive) : (evaluate w p d).state.directives = p.directives := by
  have hname (t : Token) {k : Text → Step} (h : ∀ n, (k n).state.directives = p.directives) :
      (p.withName t k).state.directives = p.directives := by
    unfold withName
    split
    · exact h _
    · rfl
  have hconditional (stack : Except Error Conditional.Stack) :
      (p.evalConditional stack).state.directives = p.directives := by
    unfold evalConditional
    split <;> rfl
  have hinclude (library : Bool) (path : Token) (position : Position) :
      (p.evalInclude w library path position).state.directives = p.directives := by
    unfold evalInclude
    split
    · rfl
    dsimp only
    split
    · rfl
    · rfl
    · unfold enter
      split
      · rfl
      · rfl
      · dsimp only
        split <;> rfl
  unfold evaluate
  dsimp only
  split
  · unfold evalDefine
    split
    · rfl
    · split <;> rfl
  · refine hname _ fun n => ?_
    unfold evalUndef
    split <;> rfl
  · exact hname _ fun n => hconditional _
  · exact hname _ fun n => hconditional _
  · exact hconditional _
  · exact hconditional _
  · exact hinclude _ _ _
  · exact hinclude _ _ _
  · rfl
  · rfl
  · unfold evalFile
    split <;> rfl

private theorem isInclude_including (library : Bool) (path : Token) :
    (Action.including library path).isInclude = true := by
  cases library <;> rfl

/-- A step that asks for a file executes a directive that includes one. -/
theorem executes_of_asks (h : p.Asks library name filename) (w : World) :
    ∃ d ∈ (step w p).state.directives, d.action.isInclude = true := by
  obtain ⟨r, d, path, told, haction, -, -, hstep⟩ := step_of_asks h w
  refine ⟨d, ?_, haction ▸ isInclude_including library path⟩
  rw [hstep]
  dsimp only [Step.after]
  rw [directives_evaluate]
  exact List.mem_cons_self ..

/-- A step that includes a file in vain fails. -/
theorem outcome_of_asks {g : Fault} (h : p.Asks library name filename)
    (hfaults : p.finder.Faults w library name filename g) : (step w p).outcome = .fail (.fault g) := by
  obtain ⟨r, d, path, told, haction, hvalue, rfl, hstep⟩ := step_of_asks h w
  rw [hstep, evaluate_including haction]
  exact outcome_include (p := { p with reader := r, formStart := true, directives := d :: p.directives }) hvalue hfaults

/-! ### Readable states -/

/-- All tokens that wait and those in the bodies of macros are readable. -/
abbrev IsReadable (p : Preprocessor) : Prop :=
  p.Bears Token.IsReadable

private theorem isReadable_stringify (arg : List Token) (marker : Token) : (stringify arg marker).IsReadable :=
  .inl (isSpelled_stringify arg marker)

theorem IsReadable.step (hp : p.IsReadable) (hsound : p.IsSound) (hcontinues : (step w p).outcome.continues) :
    (step w p).state.IsReadable := by
  refine Bears.step isReadable_stringify hp hsound hcontinues ?_ fun _ _ _ _ _ ht => ht.isReadable
  rintro _ _ _ _ ⟨-, -, -, -, -, htoken⟩
  exact .inl (isSpelled_predefinedToken htoken)

theorem isReadable_start {text : Text} {filename : Option Text} {options : Options} {finder : Finder}
    {es : List Event} (hstart : start (.ofText text filename) options finder = (.ok p, es)) : p.IsReadable :=
  bears_start hstart (fun _ ht => ht.isReadable) fun _ _ _ hm t ht =>
    .inl (.inl (isLexeme_of_ofDefinition hm t ht))

theorem IsSpelled.isReadable (hp : p.IsSpelled) : p.IsReadable :=
  ⟨hp.carries.mono fun _ ht => .inl ht, fun m hm t ht => .inl (hp.bodies m hm t ht)⟩

/-! ### Calls -/

private theorem isReportedOver_resolve {ctx : Context} {site : Site} {r r' : Reader}
    (hr : Carries Token.IsReadable [] none r) (h : resolve ctx site r = (.error f, r')) : f.IsReportedOver r := by
  have hi : ∀ {P : Ending → Prop}, P .finished → r.inclusion.Ends P → r.read.2.inclusion.Ends P :=
    fun hP hi => Reader.ends_read hi hP true
  unfold resolve at h
  rcases hread : r.read with ⟨t | _ | e, r₁⟩ <;> rw [hread] at h hi <;> dsimp only at h
  · split at h
    · obtain ⟨-, ht⟩ := (isReadClosed_carries _ _ _).read hr hread
      obtain ⟨name, hname⟩ := (of_provenance isReadable_stringify ht.provenance).value
      have hname : t.value = .ok name := hname
      rw [hname] at h
      exact (isReportedOver_resolveName h).mono hi
    · cases h
      exact .error _
  · cases h
    exact .error _
  · cases h
    exact .ofLex (Reader.ending_of_read_failed hread)

/-- A call that was resolved is given as many arguments as the macro takes. -/
theorem isReported_push {ctx : Context} {site : Site} {r r₁ : Reader} {c : Call} {f : Failure}
    (hresolve : resolve ctx site r = (.ok c, r₁)) (h : push ctx site c r₁ = .error f) : f.IsReported := by
  obtain ⟨tokens, htokens⟩ : ∃ tokens, c.meaning.tokens = .ok tokens := by
    obtain ⟨_, _, -, ⟨_, token, hmeaning, -⟩ | ⟨m, args, hmeaning, -, harity, -⟩⟩ := resolve_meaning hresolve
    · rw [hmeaning]
      exact ⟨_, rfl⟩
    · rw [hmeaning]
      exact Macro.exists_replace harity
  unfold push at h
  rw [htokens] at h
  dsimp only at h
  split at h <;> cases h
  trivial

private theorem fails_expand (hp : p.IsReadable) {question : Token} (h : (p.expand question).outcome = .fail f) :
    f.IsReportedOver p.reader := by
  unfold expand at h
  dsimp only at h
  split at h
  · next hresolve =>
    cases h
    exact isReportedOver_resolve hp.carries (Prod.ext hresolve rfl)
  · next hresolve =>
    split at h
    · next hpush =>
      cases h
      exact (isReported_push (Prod.ext hresolve rfl) hpush).over _
    · cases h

private theorem fails_ordinary (hp : p.IsReadable) (ht : t.IsReadable) (h : (p.ordinary t).outcome = .fail f) :
    f.IsReportedOver p.reader := by
  have hp' : IsReadable { p with formStart := t.isSymbol "." } := ⟨hp.carries, hp.bodies⟩
  unfold ordinary at h
  dsimp only at h
  split at h
  · cases h
  split at h
  · exact fails_expand (p := { p with formStart := t.isSymbol "." }) hp' h
  · rw [outcome_emit _ (.inr fun _ => ht.value)] at h
    cases h

/-! ### Directives -/

/-- The second token of a directive is a keyword. -/
theorem keyword_of_collect {r r' : Reader} {hyphen : Token} {tokens : List Token}
    (h : collect r hyphen = (.ok (some tokens), r')) :
    ∃ word ts, tokens = hyphen :: word :: ts ∧ (Keyword.ofText? word.text).isSome = true := by
  obtain ⟨t, r₁, rest, hpeek, -, hkeyword, hrest, rfl⟩ := exists_of_collect_some h
  rw [collectRest_eq] at hrest
  split at hrest
  · cases hrest
  rcases hread : r₁.read false with ⟨u | _ | e, r₂⟩ <;> rw [hread] at hrest <;> dsimp only at hrest
  · obtain rfl := Reader.eq_of_peek hpeek hread
    split at hrest
    · cases hrest
      exact ⟨u, [], rfl, hkeyword⟩
    · rcases hlater : (collectRest u.text u r₂).1 with f | ts <;> rw [hlater] at hrest <;> cases hrest
      exact ⟨u, ts, rfl, hkeyword⟩
  · cases hrest
  · cases hrest

private theorem isReported_withName {k : Text → Step} (ht : t.IsReadable) (h : ∀ name, (k name).outcome.IsReported) :
    (p.withName t k).outcome.IsReported := by
  obtain ⟨name, hname⟩ := ht.nameValue
  unfold withName
  rw [hname]
  exact h name

private theorem isReported_define {name : Token} (hname : name.IsReadable) (params : Option (List Token))
    (body : List Token) : (p.evalDefine name params body).outcome.IsReported := by
  obtain ⟨n, hn⟩ := hname.nameValue
  unfold evalDefine Macro.make
  rw [hn]
  dsimp only [Except.map]
  split
  · trivial
  · trivial

private theorem Outcome.IsReported.of_fail {o : Outcome} (h : o.IsReported) (ho : o = .fail f) : f.IsReported := by
  rw [ho] at h
  exact h

private theorem fails_including {d : Directive} {path : Token} (library : Bool)
    (haction : d.action = .including library path)
    (hpath : path.IsReadable) (h : (evaluate w p d).outcome = .fail f) :
    f.IsReported ∨ ∃ name g, path.value = .ok name ∧ f = .fault g ∧
      p.finder.Faults w library name p.reader.inclusion.current.filename g := by
  obtain ⟨name, hname⟩ := hpath.value
  rw [evaluate_including haction] at h
  refine (fails_include hname h).imp_right ?_
  rintro ⟨g, hg, hfaults⟩
  exact ⟨name, g, hname, hg, hfaults⟩

/-- Evaluating a directive fails with an error of the input, unless it includes a file in vain. -/
theorem fails_evaluate {d : Directive} {ts : List Token} (hts : ∀ t ∈ ts, t.IsReadable) (hover : d.action.IsOver ts)
    (h : (evaluate w p d).outcome = .fail f) :
    f.IsReported ∨ ∃ library path name g, d.action = .including library path ∧ path.value = .ok name ∧ f = .fault g ∧
      p.finder.Faults w library name p.reader.inclusion.current.filename g := by
  have hevaluate := h
  unfold evaluate at h
  dsimp only at h
  rcases haction : d.action with ⟨name, params, body⟩ | name | name | name | _ | _ | path | path | message | message |
    ⟨name, line⟩ <;> rw [haction] at hover h <;> dsimp only at h
  case define => exact .inl ((isReported_define (hts name hover.1) params body).of_fail h)
  case undef => exact .inl ((isReported_withName (hts name hover) fun n => isReported_undef n _).of_fail h)
  case ifdef | ifndef => exact .inl ((isReported_withName (hts name hover) fun n => isReported_conditional _).of_fail h)
  case otherwise | endif => exact .inl ((isReported_conditional _).of_fail h)
  case includeFile =>
    refine (fails_including false haction (hts path hover) hevaluate).imp_right ?_
    rintro ⟨name, g, hincluded⟩
    exact ⟨false, path, name, g, rfl, hincluded⟩
  case includeLib =>
    refine (fails_including true haction (hts path hover) hevaluate).imp_right ?_
    rintro ⟨name, g, hincluded⟩
    exact ⟨true, path, name, g, rfl, hincluded⟩
  case error =>
    cases h
    exact .inl trivial
  case warning => cases h
  case file =>
    obtain ⟨filename, hfilename⟩ := (hts name hover.1).value
    obtain ⟨n, hn⟩ := Option.isSome_iff_exists.1 hover.2
    unfold evalFile at h
    rw [hfilename, hn] at h
    cases h

private theorem fails_directive {hyphen word : Token} {ts : List Token} (hhyphen : hyphen.isSymbol "-" = true)
    (hword : (Keyword.ofText? word.text).isSome = true) (hts : ∀ t ∈ hyphen :: word :: ts, t.IsReadable)
    (h : (directive w p (hyphen :: word :: ts)).outcome = .fail f) :
    f.IsReported ∨ ∃ d library path name g, (p.conditions.active || isConditional (hyphen :: word :: ts)) = true ∧
      Directive.parse (hyphen :: word :: ts) = .ok d ∧ d.action = .including library path ∧ path.value = .ok name ∧
      f = .fault g ∧ p.finder.Faults w library name p.reader.inclusion.current.filename g := by
  unfold directive at h
  dsimp only at h
  split at h
  · next hexecuted =>
    rcases hparse : Directive.parse (hyphen :: word :: ts) with f' | d <;> rw [hparse] at h <;> dsimp only at h
    · cases h
      obtain ⟨hoperator, -⟩ := List.forall_mem_cons.1 hts
      obtain ⟨e, rfl⟩ := parse_error (hoperator.lexeme_hyphen hhyphen) hword (fun t ht => (hts t ht).value) hparse
      exact .inl trivial
    · obtain ⟨_, _, _, _, hmade⟩ := Directive.parse_yields hparse
      refine (fails_evaluate hts hmade.isOver h).imp_right ?_
      rintro ⟨library, path, name, g, haction, hvalue, hg, hfaults⟩
      exact ⟨d, library, path, name, g, hexecuted, rfl, haction, hvalue, hg, hfaults⟩
  · unfold skip at h
    cases h

/-! ### Steps -/

/-- A step over readable tokens fails with an error of the input, or with the fault of a source that goes on for ever or
is broken off, or with that of a file that it asks for. -/
theorem fails_step (hp : p.IsReadable) (h : (step w p).outcome = .fail f) :
    f.IsReportedOver p.reader ∨ ∃ library name filename g, f = .fault g ∧ p.Asks library name filename ∧
      p.finder.Faults w library name filename g := by
  rcases hread : p.reader.read with ⟨t | _ | e, r⟩
  · have hi : ∀ {P : Ending → Prop}, P .finished → p.reader.inclusion.Ends P → r.inclusion.Ends P :=
      fun hP hi => Reader.ends_of_read hread hi hP
    obtain ⟨hcarries, ht⟩ := hp.read isReadable_stringify hread
    rw [step_token hread] at h
    unfold take at h
    dsimp only [Step.after] at h
    by_cases hstarts : (p.formStart && r.fromSource && t.isSymbol "-") = true
    · rw [if_pos hstarts] at h
      rcases hcollect : collect r t with ⟨f' | _ | tokens, r'⟩ <;> rw [hcollect] at h <;> dsimp only at h
      · cases h
        exact .inl ((isReportedOver_collect hcollect).mono hi)
      · obtain rfl := snd_collect_none hcollect
        have hp' : IsReadable { p with reader := r.peek.2 } := ⟨carries_peek hcarries, hp.bodies⟩
        exact .inl ((fails_ordinary hp' ht h).mono fun hP hends => Reader.ends_peek (hi hP hends) hP)
      · obtain ⟨word, ts, rfl, hword⟩ := keyword_of_collect hcollect
        obtain ⟨-, hts⟩ := of_collect isReadable_stringify hcarries ht hcollect
        rcases fails_directive (Bool.and_eq_true_iff.1 hstarts).2 hword hts h with
          hreported | ⟨d, library, path, name, g, hexecuted, hparse, haction, hvalue, rfl, hfaults⟩
        · exact .inl (hreported.over _)
        · exact .inr ⟨library, name, _, g, rfl, .intro hread hstarts hcollect hexecuted hparse haction hvalue, hfaults⟩
    · rw [if_neg hstarts] at h
      have hp' : IsReadable { p with reader := r } := ⟨hcarries, hp.bodies⟩
      exact .inl ((fails_ordinary hp' ht h).mono hi)
  · unfold step at h
    rw [hread] at h
    dsimp only at h
    split at h <;> cases h
    exact .inl (.error _)
  · unfold step at h
    rw [hread] at h
    cases h
    exact .inl (.ofLex (Reader.ending_of_read_failed hread))

end Preprocessor

end ErlangMacros
