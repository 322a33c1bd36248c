import ErlangMacros.Proofs.Preprocessor.Forms

/-!
# Reading input form by form

Without macro calls and included files an input means what its forms mean one after the other.  `interpret` reads forms:
directives change an `Environment`, and the other forms are emitted as long as all conditions hold.

The preprocessor knows of no forms.  It looks at one token at a time, and finds out only from a flag and by looking ahead
where a directive starts.  Between two forms its state is given by the environment and by the tokens that are left
(`Reads`).  A form leads from there to the next such state (`Reads.step_directive`, `Reads.emits_form`,
`Reads.drops_form`), so that a run comes to what `interpret` gives (`run_interprets_forms`).
-/

namespace ErlangMacros

namespace Preprocessor

open Token (loose symbol operator atom var)

/-! ### Forms and their effects -/

/-- An open conditional. -/
structure Branch where
  holds : Bool
  /-- The other branch has been turned to. -/
  turned : Bool
  position : Option Position
deriving DecidableEq

/-- What forms have told. -/
structure Environment where
  macros : MacroTable
  /-- The open conditionals, innermost first. -/
  branches : List Branch := []
  /-- The file name that the input reports. -/
  filename : Option Text := none
  /-- What is added to a line number to get the line that the input reports. -/
  lineOffset : Int := 0
  directives : List Directive := []
  warnings : List Diagnostic := []
deriving DecidableEq

namespace Environment

/-- The conditions of all open conditionals hold. -/
def isActive (env : Environment) : Bool :=
  env.branches.all (·.holds)

/-- Open a conditional. -/
def branch (env : Environment) (holds : Bool) (position : Position) : Environment :=
  { env with branches := ⟨holds, false, some position⟩ :: env.branches }

/-- The effect of a directive. -/
def apply (env : Environment) (d : Directive) : Except Failure Environment :=
  match d.action with
  | .define name params body => do
    let m ← Failure.ofEscape (Macro.make name params body)
    let macros ← (env.macros.define m).mapError .error
    return { env with macros }
  | .undef name => do
    let n ← Failure.ofEscape name.nameValue
    let macros ← (env.macros.undef n (some d.position)).mapError .error
    return { env with macros }
  | .ifdef name => do
    let n ← Failure.ofEscape name.nameValue
    return env.branch (env.macros.isDefined n) d.position
  | .ifndef name => do
    let n ← Failure.ofEscape name.nameValue
    return env.branch (!env.macros.isDefined n) d.position
  | .otherwise =>
    match env.branches with
    | [] => .error (.diagnose .elseWithoutConditional (some d.position))
    | b :: branches =>
      if b.turned then .error (.diagnose (.secondElse b.position) (some d.position))
      else .ok { env with branches := { b with holds := !b.holds, turned := true } :: branches }
  | .endif =>
    match env.branches with
    | [] => .error (.diagnose .unmatchedEndif (some d.position))
    | _ :: branches => .ok { env with branches }
  | .includeFile _ | .includeLib _ => .ok env
  | .error message => .error (.diagnose (.user message) (some d.position))
  | .warning message => .ok { env with warnings := ⟨some d.position, message⟩ :: env.warnings }
  | .file name line => do
    let filename ← Failure.ofEscape name.value
    match integerValue? line.text with
    | none => .error (.fault (.rejected (.invalidLine line.text)))
    | some n => .ok { env with filename := some filename, lineOffset := n - (d.lastLine + 1) }

/-- A form that is a directive: whether it fails, and the environment after it. -/
def direct (env : Environment) (form : List Token) : Option Failure × Environment :=
  if !form.getLast?.any (·.isSymbol ".") then
    (some (.diagnose (.missingStop ((form[1]?.map (·.text)).getD "")) (form.getLast?.map (·.position))), env)
  else if env.isActive || isConditional form then
    match Directive.parse form with
    | .error f => (some f, env)
    | .ok d =>
      let env := { env with directives := d :: env.directives }
      match env.apply d with
      | .error f => (some f, env)
      | .ok env => (none, env)
  else (none, env)

/-- The end of the input, which no conditional may be open at. -/
def ending (env : Environment) : RunEnd :=
  match env.branches with
  | [] => .stop
  | b :: _ => .failed (.diagnose .unterminatedConditional b.position)

end Environment

/-- What forms come to: the tokens that they emit, how that ends, and the environment after it. -/
structure Reading where
  tokens : List Token
  ending : RunEnd
  environment : Environment
deriving DecidableEq

/-- Read forms in order, up to the first that fails. -/
def interpret (env : Environment) : List (List Token) → Reading
  | [] => ⟨[], env.ending, env⟩
  | form :: forms =>
    if isDirective form then
      match env.direct form with
      | (some f, env) => ⟨[], .failed f, env⟩
      | (none, env) => interpret env forms
    else if env.isActive then
      let r := interpret env forms
      { r with tokens := form ++ r.tokens }
    else interpret env forms

/-- The form is a directive that opens a file. -/
def isInclude : List Token → Bool
  | hyphen :: keyword :: _ => startsInclude hyphen keyword
  | _ => false

/-- The form is a module attribute with a name that has no value. -/
def misnamesModule : List Token → Bool
  | hyphen :: keyword :: paren :: name :: _ =>
    hyphen.isSymbol "-" && (moduleAttribute? [keyword, paren, name]).isSome && !name.value.isOk
  | _ => false

/-! ### The environment of a state -/

/-- An open conditional of the preprocessor, which keeps also whether those around it hold. -/
def Branch.ofFrame (f : Conditional.Frame) : Branch :=
  ⟨f.condition, f.elseSeen, f.position⟩

/-- What has been told up to a state. -/
def environment (p : Preprocessor) : Environment where
  macros := p.macros
  branches := p.conditions.frames.map .ofFrame
  filename := p.reader.inclusion.current.logicalFilename
  lineOffset := p.reader.inclusion.current.lineOffset
  directives := p.directives
  warnings := p.warnings

variable {w : World} {p p' : Preprocessor} {env : Environment} {t : Token} {ts us before form : List Token}

private theorem isActive_environment (h : p.conditions.IsConsistent) :
    p.environment.isActive = p.conditions.active := by
  rw [h.active_eq, Environment.isActive, environment, List.all_map]
  rfl

private theorem branches_environment {fs : List Conditional.Frame} (h : p.conditions.frames = fs) :
    p.environment.branches = fs.map .ofFrame := by
  rw [environment, h]

/-- The state after a directive that opens no file. -/
inductive Applied (p : Preprocessor) : Preprocessor → Prop where
  | mk (macros : MacroTable) (conditions : Conditional.Stack) (directives : List Directive)
      (warnings : List Diagnostic) (filename : Option Text) (offset : Int) :
      Applied p
        { p with
          macros, conditions, directives, warnings,
          reader :=
            { p.reader with inclusion :=
              { p.reader.inclusion with current :=
                { p.reader.inclusion.current with logicalFilename := filename, lineOffset := offset } } } }

/-- The step does what the environment tells. -/
inductive HasEffect (p : Preprocessor) : Except Failure Environment → Step → Prop where
  | failed (f : Failure) : HasEffect p (.error f) (.failed p f)
  | changed (p' : Preprocessor) (told : List Event) (applied : Applied p p') :
      HasEffect p (.ok p'.environment) (.changed p' told)

/-- A directive that opens no file has the effect that the environment tells. -/
theorem hasEffect_evaluate (w : World) (p : Preprocessor) (d : Directive)
    (hno : ∀ path, ¬ (d.action = .includeFile path ∨ d.action = .includeLib path)) :
    HasEffect p (p.environment.apply d) (evaluate w p d) := by
  unfold evaluate Environment.apply
  rcases haction : d.action with ⟨name, params, body⟩ | name | name | name | _ | _ | path | path | message | message |
    ⟨name, line⟩ <;> dsimp only
  case define =>
    unfold evalDefine
    rcases Macro.make name params body with e | m
    · exact .failed _
    · show HasEffect p ((p.macros.define m).mapError .error >>= fun macros => pure { p.environment with macros }) _
      dsimp only
      rcases p.macros.define m with e | macros
      · exact .failed _
      · exact .changed { p with macros } _ (.mk _ _ _ _ _ _)
  case undef =>
    unfold withName
    rcases name.nameValue with e | n
    · exact .failed _
    · show HasEffect p ((p.macros.undef n (some d.position)).mapError .error >>=
        fun macros => pure { p.environment with macros }) _
      dsimp only [evalUndef]
      rcases p.macros.undef n (some d.position) with e | macros
      · exact .failed _
      · exact .changed { p with macros } _ (.mk _ _ _ _ _ _)
  case ifdef =>
    unfold withName
    rcases name.nameValue with e | n
    · exact .failed _
    · exact .changed { p with conditions := p.conditions.push (p.macros.isDefined n) (some d.position) } _
        (.mk _ _ _ _ _ _)
  case ifndef =>
    unfold withName
    rcases name.nameValue with e | n
    · exact .failed _
    · exact .changed { p with conditions := p.conditions.push (!p.macros.isDefined n) (some d.position) } _
        (.mk _ _ _ _ _ _)
  case otherwise =>
    rcases hframes : p.conditions.frames with _ | ⟨f, fs⟩
    · simp only [branches_environment hframes, List.map_nil, Conditional.Stack.flip, hframes, evalConditional]
      exact .failed _
    · simp only [branches_environment hframes, List.map_cons, Conditional.Stack.flip, hframes, evalConditional,
        Branch.ofFrame]
      by_cases hseen : f.elseSeen = true
      · simp only [hseen, if_true]
        exact .failed _
      · simp only [hseen, Bool.false_eq_true, if_false]
        exact .changed { p with conditions := ⟨{ f with elseSeen := true, condition := !f.condition } :: fs⟩ } _
          (.mk _ _ _ _ _ _)
  case endif =>
    rcases hframes : p.conditions.frames with _ | ⟨f, fs⟩
    · simp only [branches_environment hframes, List.map_nil, Conditional.Stack.close, hframes, evalConditional]
      exact .failed _
    · simp only [branches_environment hframes, List.map_cons, Conditional.Stack.close, hframes, evalConditional]
      exact .changed { p with conditions := ⟨fs⟩ } _ (.mk _ _ _ _ _ _)
  case includeFile => exact absurd (.inl haction) (hno path)
  case includeLib => exact absurd (.inr haction) (hno path)
  case error => exact .failed _
  case warning => exact .changed (p.warn ⟨some d.position, message⟩) _ (.mk _ _ _ _ _ _)
  case file =>
    unfold evalFile
    rcases name.value with e | filename
    · exact .failed _
    · rcases hinteger : integerValue? line.text with _ | n
      · exact .failed _
      · let current := p.reader.inclusion.current.setFile filename n d.lastLine
        exact .changed { p with reader := { p.reader with inclusion := { p.reader.inclusion with current } } } _
          (.mk _ _ _ _ _ _)

/-- The step does with a form what the environment tells, and changes no more than that. -/
inductive Directs (p : Preprocessor) : Option Failure × Environment → Step → Prop where
  | failed (p' : Preprocessor) (f : Failure) (applied : Applied p p') :
      Directs p (some f, p'.environment) (.failed p' f)
  | changed (p' : Preprocessor) (told : List Event) (applied : Applied p p') :
      Directs p (none, p'.environment) (.changed p' told)

private theorem not_include_of_parse {d : Directive} (hparse : Directive.parse form = .ok d)
    (hdirective : isDirective form = true) (hno : isInclude form = false) (path : Token) :
    ¬ (d.action = .includeFile path ∨ d.action = .includeLib path) := by
  intro haction
  obtain ⟨keyword, hkeyword, htext⟩ := text_of_include hparse haction
  unfold isDirective at hdirective
  split at hdirective
  · cases hkeyword
    simp only [startsDirective, Bool.and_eq_true] at hdirective
    rcases htext with htext | htext <;> simp [isInclude, startsInclude, hdirective.1, hdirective.2.1, htext] at hno
  · cases hdirective

/-- A form that is a directive and opens no file is taken as the environment tells. -/
theorem directs_directive (w : World) (hp : p.conditions.IsConsistent) (hstart : p.formStart = true)
    (hform : IsForm form) (hdirective : isDirective form = true) (hno : isInclude form = false) :
    Directs p (p.environment.direct form) (directive w p form) := by
  have hsame : { p with formStart := true } = p := by rw [← hstart]
  have hstop : form.getLast?.any (·.isSymbol ".") = true := by
    obtain ⟨init, stop, rfl, hstop, -⟩ := hform
    simpa using hstop
  unfold directive Environment.direct
  rw [hsame, hstop, isActive_environment hp]
  dsimp only
  rw [Bool.not_true, if_neg Bool.false_ne_true]
  by_cases hactive : (p.conditions.active || isConditional form) = true
  · rw [if_pos hactive, if_pos hactive]
    rcases hparse : Directive.parse form with f | d
    · exact .failed p f (.mk _ _ _ _ _ _)
    · have heffect := hasEffect_evaluate w { p with directives := d :: p.directives } d
        (not_include_of_parse hparse hdirective hno)
      have henv : { p.environment with directives := d :: p.environment.directives } =
        environment { p with directives := d :: p.directives } := rfl
      dsimp only
      rw [henv]
      generalize (environment _).apply d = x, evaluate w _ d = s at heffect ⊢
      cases heffect with
      | failed f => exact .failed _ f (.mk _ _ _ _ _ _)
      | changed p' told happlied =>
        cases happlied
        exact .changed _ told (.mk _ _ _ _ _ _)
  · rw [if_neg hactive, if_neg hactive]
    unfold skip
    split
    · exact .changed p _ (.mk _ _ _ _ _ _)
    · exact .changed p _ (.mk _ _ _ _ _ _)

/-! ### States in the input -/

/-- What is watched stands in the current form, of which the tokens `before` have been read; or there is a full stop in
it, so that it is no module attribute. -/
def Watches (before : List Token) (watched : Option (List Token)) : Prop :=
  ∀ seen, watched = some seen →
    (∃ t ∈ seen, t.isSymbol "." = true) ∨ ∃ hyphen, hyphen.isSymbol "-" = true ∧ before = hyphen :: seen

/-- A state in the input with its environment, with the tokens of the current form that have been read, and those that
are left.  The module has been given its name or not. -/
structure Reads (env : Environment) (fixed : Bool) (before ts : List Token) (p : Preprocessor) : Prop where
  reader : p.reader.AwaitsInput ts
  formStart_eq : p.formStart = before.isEmpty
  isConsistent : p.conditions.IsConsistent
  environment_eq : p.environment = env
  moduleFixed_eq : p.moduleFixed = fixed
  watches : fixed = true ∨ Watches before p.watched

variable {fixed : Bool} {more : List Token}

theorem moduleAttribute?_stop {tokens : List Token} (h : ∃ t ∈ tokens, t.isSymbol "." = true) :
    moduleAttribute? tokens = none := by
  obtain ⟨t, ht, hstop⟩ := h
  unfold moduleAttribute?
  split
  · next keyword paren name =>
    have hatom : ∀ u : Token, u.isSymbol "." = true → u.kind ≠ .atom := by
      intro u hu hkind
      simp [Token.isSymbol, hkind, Kind.isSymbol] at hu
    rw [if_neg]
    intro hmodule
    simp only [Bool.and_eq_true, decide_eq_true_eq] at hmodule
    obtain ⟨⟨⟨hkeyword, -⟩, hparen⟩, hname⟩ := hmodule
    simp only [List.mem_cons, List.not_mem_nil, or_false] at ht
    rcases ht with rfl | rfl | rfl
    · exact hatom _ hstop hkeyword
    · rw [Token.isSymbol_eq_false hstop (by decide)] at hparen
      cases hparen
    · exact hatom _ hstop hname
  · rfl

private theorem tokens_of_moduleAttribute? {tokens : List Token} {name : Token}
    (h : moduleAttribute? tokens = some name) : ∃ keyword paren, tokens = [keyword, paren, name] := by
  unfold moduleAttribute? at h
  split at h
  · split at h
    · cases h
      exact ⟨_, _, rfl⟩
    · cases h
  · cases h

/-- A full stop ends the form in which something is watched. -/
theorem Watches.stop {watched : Option (List Token)} (h : Watches (before ++ [t]) watched)
    (hstop : t.isSymbol "." = true) : Watches [] watched := by
  intro seen hseen
  rcases h seen hseen with hmem | ⟨hyphen, hhyphen, hbefore⟩
  · exact .inl hmem
  · cases before with
    | nil =>
      cases hbefore
      rw [Token.isSymbol_eq_false hstop (by decide)] at hhyphen
      cases hhyphen
    | cons u before =>
      obtain ⟨-, rfl⟩ := List.cons_eq_cons.1 hbefore
      exact .inl ⟨t, by simp, hstop⟩

/-- A token is emitted, unless it is the name in a module attribute and has no value. -/
theorem emit_watching (atFormStart : Bool) (hstart : atFormStart = true → before = [])
    (hwatches : p.moduleFixed = true ∨ Watches before p.watched)
    (hname : p.moduleFixed = true ∨ misnamesModule (before ++ t :: more) = false) :
    ∃ moduleName watched, (p.emit t atFormStart).outcome = .emit t ∧
      (p.emit t atFormStart).state = { p with moduleName, watched } ∧
      (p.moduleFixed = true ∨ Watches (before ++ [t]) watched) := by
  unfold emit
  by_cases hfixed : p.moduleFixed = true
  · rw [if_pos hfixed]
    exact ⟨_, _, rfl, rfl, .inl hfixed⟩
  rw [if_neg hfixed]
  replace hwatches := hwatches.resolve_left hfixed
  replace hname := hname.resolve_left hfixed
  have hnone : Watches (before ++ [t]) none := by
    intro seen hseen
    cases hseen
  rcases hwatched : p.watched with _ | seen
  · dsimp only
    by_cases hhyphen : (atFormStart && t.isSymbol "-") = true
    · rw [if_pos hhyphen]
      obtain ⟨htrue, hhyphen⟩ := Bool.and_eq_true_iff.1 hhyphen
      refine ⟨_, _, rfl, rfl, .inr ?_⟩
      rintro seen ⟨⟩
      exact .inr ⟨t, hhyphen, by rw [hstart htrue, List.nil_append]⟩
    · rw [if_neg hhyphen]
      exact ⟨_, _, rfl, rfl, .inr (hwatched ▸ hnone)⟩
  · -- a full stop among the tokens that are watched shows that they are no module attribute
    have hseen := hwatches seen hwatched
    dsimp only
    by_cases hlength : (seen ++ [t]).length = 3
    · rw [if_pos hlength]
      rcases hmodule : moduleAttribute? (seen ++ [t]) with _ | name
      · exact ⟨_, _, rfl, rfl, .inr hnone⟩
      · rcases hseen with ⟨u, hu, hstop⟩ | ⟨hyphen, hhyphen, rfl⟩
        · rw [moduleAttribute?_stop ⟨u, List.mem_append_left _ hu, hstop⟩] at hmodule
          cases hmodule
        · obtain ⟨keyword, paren, htokens⟩ := tokens_of_moduleAttribute? hmodule
          obtain ⟨rfl, hlast⟩ := List.append_inj' (htokens.trans rfl : seen ++ [t] = [keyword, paren] ++ [name]) rfl
          cases hlast
          have hmodule' : moduleAttribute? [keyword, paren, t] = some t := hmodule
          have hnamed : misnamesModule (hyphen :: keyword :: paren :: t :: more) = false := hname
          rw [misnamesModule, hhyphen, hmodule'] at hnamed
          dsimp only
          rcases hvalue : t.value with e | moduleName
          · rw [hvalue] at hnamed
            cases hnamed
          · exact ⟨_, _, rfl, rfl, .inr hnone⟩
    · rw [if_neg hlength]
      refine ⟨_, _, rfl, rfl, .inr ?_⟩
      rintro _ ⟨⟩
      rcases hseen with ⟨u, hu, hstop⟩ | ⟨hyphen, hhyphen, rfl⟩
      · exact .inl ⟨u, List.mem_append_left _ hu, hstop⟩
      · exact .inr ⟨hyphen, hhyphen, rfl⟩

/-! ### From form to form -/

private theorem environment_passes {r : Reader} (h : p.reader.Passes ts r) :
    environment { p with reader := r } = p.environment := by
  have hlabel := h.current.label_eq
  rw [environment, environment]
  dsimp only
  rw [show r.inclusion.current.logicalFilename = _ from congrArg Source.Label.logicalFilename hlabel,
    show r.inclusion.current.lineOffset = _ from congrArg Source.Label.lineOffset hlabel]
  rfl

/-- A token of a form that starts no directive is to be emitted while all conditions hold. -/
theorem Reads.step_eq_emit (h : Reads env fixed before (t :: ts) p) (hactive : env.isActive = true)
    (hquestion : t.isSymbol "?" = false) (hno : before = [] → isDirective (t :: ts) = false) :
    ∃ r told, p.reader.Passes ts r ∧
      step w p = (emit { p with reader := r, formStart := t.isSymbol "." } t before.isEmpty).after told := by
  obtain ⟨hreader, hstart, hconsistent, rfl, rfl, -⟩ := h
  obtain ⟨r, told, hpasses, hstep⟩ := step_current (w := w) hreader.isOutside hreader.remaining_eq fun htrue _ =>
    ⟨hno (List.isEmpty_iff.1 (hstart.symm.trans htrue)), .inr ⟨hreader.outer_eq, hreader.ending_eq⟩⟩
  rw [isActive_environment hconsistent] at hactive
  refine ⟨r, told, hpasses, ?_⟩
  rw [hstep, ← hstart]
  simp only [ordinary, hactive, Bool.not_true, hquestion, Bool.false_eq_true, if_false]

/-- A token of a form is emitted while all conditions hold. -/
theorem Reads.step_emit (h : Reads env fixed before (t :: ts) p) (hactive : env.isActive = true)
    (hquestion : t.isSymbol "?" = false) (hno : before = [] → isDirective (t :: ts) = false)
    (hname : fixed = true ∨ misnamesModule (before ++ t :: more) = false) :
    (step w p).outcome = .emit t ∧
      Reads env fixed (if t.isSymbol "." then [] else before ++ [t]) ts (step w p).state := by
  obtain ⟨r, told, hpasses, hemit⟩ := h.step_eq_emit (w := w) hactive hquestion hno
  obtain ⟨hreader, hstart, hconsistent, rfl, rfl, hwatches⟩ := h
  obtain ⟨moduleName, watched, houtcome, hstate, hwatches'⟩ :=
    emit_watching (p := { p with reader := r, formStart := t.isSymbol "." }) (t := t) before.isEmpty List.isEmpty_iff.1
      hwatches hname
  rw [hemit]
  refine ⟨houtcome, ?_⟩
  dsimp only [Step.after]
  rw [hstate]
  refine ⟨hreader.passes hpasses, ?_, hconsistent, environment_passes hpasses, rfl, ?_⟩
  · show t.isSymbol "." = _
    by_cases hstop : t.isSymbol "." = true
    · rw [if_pos hstop, hstop, List.isEmpty_nil]
    · simp [hstop]
  · refine hwatches'.imp_right fun hwatches' => ?_
    by_cases hstop : t.isSymbol "." = true
    · rw [if_pos hstop]
      exact hwatches'.stop hstop
    · rw [if_neg hstop]
      exact hwatches'

/-- The tokens of a form before its full stop are emitted while all conditions hold. -/
theorem Reads.emits (h : Reads env fixed before (us ++ ts) p) (hactive : env.isActive = true)
    (hquestion : ∀ t ∈ us, t.isSymbol "?" = false) (hstop : ∀ t ∈ us, t.isSymbol "." = false)
    (hno : before = [] → isDirective (us ++ ts) = false)
    (hname : fixed = true ∨ misnamesModule (before ++ (us ++ more)) = false) :
    ∃ p', Emits w p us p' ∧ Reads env fixed (before ++ us) ts p' := by
  induction us generalizing p before with
  | nil => exact ⟨p, .refl p, by rwa [List.append_nil]⟩
  | cons t us ih =>
    obtain ⟨ht, hquestion⟩ := List.forall_mem_cons.1 hquestion
    obtain ⟨hplain, hstop⟩ := List.forall_mem_cons.1 hstop
    obtain ⟨hemit, hstate⟩ := h.step_emit (w := w) hactive ht hno hname
    rw [if_neg (by rw [hplain]; exact Bool.false_ne_true)] at hstate
    obtain ⟨p', hemits, hp'⟩ := ih hstate hquestion hstop (fun hnil => absurd hnil (by simp))
      (by rwa [List.append_assoc])
    rw [List.append_assoc] at hp'
    exact ⟨p', .emit hemit hemits, hp'⟩

/-- A form that is no directive is emitted while all conditions hold. -/
theorem Reads.emits_form (h : Reads env fixed [] (form ++ ts) p) (hactive : env.isActive = true) (hform : IsForm form)
    (hno : isDirective form = false) (hquestion : ∀ t ∈ form, t.isSymbol "?" = false)
    (hname : fixed = true ∨ misnamesModule form = false) :
    ∃ p', Emits w p form p' ∧ Reads env fixed [] ts p' := by
  rw [← hform.isDirective_append ts] at hno
  obtain ⟨init, stop, rfl, hstop, hinit⟩ := hform
  obtain ⟨hquestion, hlast⟩ := List.forall_mem_append.1 hquestion
  rw [List.append_assoc] at h hno
  obtain ⟨p₁, hemits, hp₁⟩ := h.emits (w := w) hactive hquestion hinit (fun _ => hno) hname
  have hno' : init = [] → isDirective (stop :: ts) = false := by
    rintro rfl
    exact hno
  obtain ⟨hemit, hstate⟩ := hp₁.step_emit (w := w) hactive (hlast stop List.mem_cons_self) hno' hname
  rw [if_pos hstop] at hstate
  exact ⟨_, hemits.trans (.single hemit), hstate⟩

/-- A form that is no directive is dropped while some condition does not hold. -/
theorem Reads.drops_form (h : Reads env fixed [] (form ++ ts) p) (hactive : env.isActive = false) (hform : IsForm form)
    (hno : isDirective form = false) : ∃ p', Emits w p [] p' ∧ Reads env fixed [] ts p' := by
  obtain ⟨hreader, hstart, hconsistent, rfl, rfl, hwatches⟩ := h
  rw [isActive_environment hconsistent] at hactive
  obtain ⟨r, hpasses, hemits⟩ := emits_drop_form (w := w) hactive hreader.isOutside hreader.remaining_eq hform hno
  exact ⟨_, hemits, hreader.passes hpasses, rfl, hconsistent, environment_passes hpasses, rfl, hwatches⟩

/-- A form that is a directive is taken in one step, as the environment tells. -/
theorem Reads.step_directive {o : Option Failure} {env' : Environment} (h : Reads env fixed [] (form ++ ts) p)
    (hform : IsForm form) (hdirective : isDirective form = true) (hno : isInclude form = false)
    (hdirect : env.direct form = (o, env')) :
    (step w p).outcome = o.elim .proceed .fail ∧ (step w p).state.environment = env' ∧
      (o = none → Reads env' fixed [] ts (step w p).state) := by
  obtain ⟨hreader, hstart, hconsistent, rfl, rfl, hwatches⟩ := h
  obtain ⟨r, told, hpasses, hstep⟩ :=
    step_form_directive (w := w) hreader.isOutside hstart hreader.remaining_eq hform hdirective
  have hconditions := isConsistent_step (w := w) hconsistent
  have hdirects := directs_directive (p := { p with reader := r }) w hconsistent hstart hform hdirective hno
  rw [environment_passes hpasses, hdirect] at hdirects
  rw [hstep] at hconditions ⊢
  have hr := hreader.passes hpasses
  generalize directive w { p with reader := r } form = s at hdirects hconditions ⊢
  cases hdirects with
  | failed p' f => exact ⟨rfl, rfl, nofun⟩
  | changed p' told' happlied =>
    refine ⟨rfl, rfl, fun _ => ?_⟩
    have hconsistent' : p'.conditions.IsConsistent := hconditions rfl
    obtain ⟨⟩ := happlied
    exact ⟨⟨⟨hr.isOutside.frames_eq, hr.isOutside.depth_eq, hr.isOutside.callSite_eq⟩, hr.outer_eq, hr.ending_eq,
      hr.remaining_eq⟩, hstart, hconsistent', rfl, rfl, hwatches⟩

/-- At the end of the input the run ends as the environment tells. -/
theorem step_end (h : p.reader.AwaitsInput []) :
    (step w p).outcome.ending? = some p.environment.ending ∧ (step w p).state.environment = p.environment := by
  obtain ⟨r, hread, hpasses⟩ := h.read_end true
  simp only [step, hread]
  rcases hframes : p.conditions.frames with _ | ⟨f, fs⟩
  · simp only [Conditional.Stack.finish, hframes, Environment.ending, branches_environment hframes, List.map_nil]
    exact ⟨rfl, environment_passes hpasses⟩
  · simp only [Conditional.Stack.finish, hframes, Environment.ending, branches_environment hframes, List.map_cons]
    exact ⟨rfl, environment_passes hpasses⟩

/-! ### The whole input -/

/-- A way from the state leads to the end of the run, and gives the reading. -/
def ComesTo (w : World) (p : Preprocessor) (r : Reading) : Prop :=
  ∃ q, Emits w p r.tokens q ∧ q.reader.inclusion.IsErrorFree ∧ (step w q).outcome.ending? = some r.ending ∧
    (step w q).state.environment = r.environment

private theorem ComesTo.of_emits {r : Reading} (hemits : Emits w p us p') (h : ComesTo w p' r) :
    ComesTo w p { r with tokens := us ++ r.tokens } := by
  obtain ⟨q, hrest, hend⟩ := h
  exact ⟨q, hemits.trans hrest, hend⟩

private theorem comesTo_end (h : p.reader.AwaitsInput []) (henv : p.environment = env) :
    ComesTo w p (interpret env []) :=
  henv ▸ ⟨p, .refl p, h.isErrorFree, step_end h⟩

/-- Tokens without a full stop are the last form. -/
theorem Reads.comesTo_last (h : Reads env fixed [] form p) (hform : ∀ t ∈ form, t.isSymbol "." = false)
    (hquestion : ∀ t ∈ form, t.isSymbol "?" = false) (hname : fixed = true ∨ misnamesModule form = false) :
    ComesTo w p (interpret env [form]) := by
  by_cases hdirective : isDirective form = true
  · obtain ⟨r, told, hpasses, hstep⟩ := step_unterminated (w := w) h.reader h.formStart_eq hdirective hform
    have hstop : form.getLast?.any (·.isSymbol ".") = false := by
      rcases hlast : form.getLast? with _ | t
      · rfl
      · exact hform t (List.mem_of_getLast? hlast)
    simp only [interpret, hdirective, if_true, Environment.direct, hstop, Bool.not_false]
    refine ⟨p, .refl p, h.reader.isErrorFree, ?_⟩
    rw [hstep]
    exact ⟨rfl, (environment_passes hpasses).trans h.environment_eq⟩
  · rw [interpret, if_neg hdirective]
    rw [Bool.not_eq_true] at hdirective
    by_cases hactive : env.isActive = true
    · rw [if_pos hactive]
      have h' : Reads env fixed [] (form ++ []) p := by rwa [List.append_nil]
      have hname' : fixed = true ∨ misnamesModule ([] ++ (form ++ [])) = false := by rwa [List.append_nil]
      obtain ⟨p', hemits, hp'⟩ :=
        h'.emits (w := w) hactive hquestion hform (fun _ => by rwa [List.append_nil]) hname'
      exact (comesTo_end hp'.reader hp'.environment_eq).of_emits hemits
    · rw [if_neg hactive]
      obtain ⟨hreader, hstart, hconsistent, rfl, -, -⟩ := h
      rw [Bool.not_eq_true, isActive_environment hconsistent] at hactive
      have hremaining : p.reader.inclusion.current.remaining = form ++ [] := by
        rw [hreader.remaining_eq, List.append_nil]
      obtain ⟨r, hpasses, hemits⟩ := emits_drop (w := w) hactive hreader.isOutside hremaining hform
        (fun _ => by rwa [List.append_nil]) (.inr ⟨hreader.outer_eq, hreader.ending_eq⟩)
      refine ComesTo.of_emits hemits (comesTo_end ?_ ?_)
      · exact hreader.passes hpasses
      · exact environment_passes hpasses

/-- From a state between forms the run comes to what the forms come to. -/
theorem Reads.comesTo (h : Reads env fixed [] ts p) (hquestion : ∀ t ∈ ts, t.isSymbol "?" = false)
    (hincludes : ∀ form ∈ forms ts, isInclude form = false)
    (hname : fixed = true ∨ ∀ form ∈ forms ts, misnamesModule form = false) :
    ComesTo w p (interpret env (forms ts)) := by
  induction ts using forms_induction generalizing p env with
  | nil => exact comesTo_end h.reader h.environment_eq
  | form form rest hform hforms ih =>
    rw [hforms] at hincludes hname ⊢
    obtain ⟨hquestion, hrest⟩ := List.forall_mem_append.1 hquestion
    obtain ⟨hno, hincludes⟩ := List.forall_mem_cons.1 hincludes
    have hfirst : fixed = true ∨ misnamesModule form = false :=
      hname.imp_right fun hname => hname form List.mem_cons_self
    replace hname : fixed = true ∨ ∀ form ∈ forms rest, misnamesModule form = false :=
      hname.imp_right fun hname => (List.forall_mem_cons.1 hname).2
    -- the run goes on from the state after the form
    have hgo {env' : Environment} {p' : Preprocessor} (h' : Reads env' fixed [] rest p') :
        ComesTo w p' (interpret env' (forms rest)) := ih h' hrest hincludes hname
    by_cases hdirective : isDirective form = true
    · rcases hdirect : env.direct form with ⟨o, env'⟩
      obtain ⟨houtcome, henv, hstate⟩ := h.step_directive (w := w) hform hdirective hno hdirect
      rw [interpret, if_pos hdirective, hdirect]
      cases o with
      | none => exact (hgo (hstate rfl)).of_emits (.silent houtcome)
      | some f => exact ⟨p, .refl p, h.reader.isErrorFree, by rw [houtcome]; rfl, henv⟩
    · rw [interpret, if_neg hdirective]
      rw [Bool.not_eq_true] at hdirective
      by_cases hactive : env.isActive = true
      · rw [if_pos hactive]
        obtain ⟨p', hemits, hp'⟩ := h.emits_form (w := w) hactive hform hdirective hquestion hfirst
        exact (hgo hp').of_emits hemits
      · rw [if_neg hactive]
        rw [Bool.not_eq_true] at hactive
        obtain ⟨p', hemits, hp'⟩ := h.drops_form (w := w) hactive hform hdirective
        exact (hgo hp').of_emits hemits
  | last ts _ hlast hforms =>
    rw [hforms] at hname ⊢
    exact h.comesTo_last hlast hquestion (hname.imp_right fun hname => hname ts List.mem_cons_self)

theorem RunEnd.isDefinite_of_step {q : Preprocessor} {e : RunEnd} (h : q.reader.inclusion.IsErrorFree)
    (he : (step w q).outcome.ending? = some e) : e.IsDefinite := by
  have hdefinite := isDefinite_step w h.isFinite
  rcases houtcome : (step w q).outcome with t | _ | _ | f <;> rw [houtcome] at he hdefinite <;> cases he
  · exact trivial
  · exact hdefinite

/-- A run over tokens without macro calls, which opens no file, comes to what the forms of these tokens come to: it emits
the same tokens, ends in the same way, and is told the same.  If the module is given no name beforehand, module attributes
have to give it one. -/
theorem run_interprets_forms {tokens : List Token} {options : Options} {finder : Finder} {es : List Event}
    (hstart : start { tokens } options finder = (.ok p, es)) (hquestion : ∀ t ∈ tokens, t.isSymbol "?" = false)
    (hincludes : ∀ form ∈ forms tokens, isInclude form = false)
    (hname : options.moduleName.isSome ∨ ∀ form ∈ forms tokens, misnamesModule form = false) :
    let reading := interpret { macros := p.macros, filename := options.filename } (forms tokens)
    ∃ last : Preprocessor, last.environment = reading.environment ∧
      ∃ bound es', ∀ fuel ≥ bound, p.run w fuel = ⟨reading.tokens, reading.ending, last.close, es'⟩ := by
  intro reading
  have hdone : p.done = false := (isSound_start hstart).done_eq
  have hreads : Reads { macros := p.macros, filename := options.filename } options.moduleName.isSome [] tokens p := by
    obtain ⟨macros, -, rfl⟩ := start_eq hstart
    exact ⟨⟨⟨rfl, rfl, rfl⟩, rfl, rfl, rfl⟩, rfl, Conditional.Stack.isConsistent_empty, rfl, rfl, .inr nofun⟩
  obtain ⟨q, hemits, herror, hending, henvironment⟩ := hreads.comesTo (w := w) hquestion hincludes hname
  exact ⟨(step w q).state, henvironment, hemits.run_eq hending (RunEnd.isDefinite_of_step herror hending) hdone⟩

/-- A module attribute and a definition are in the branch that is selected, and a definition without a name and an error
in the other one.  A keyword inside a form is emitted, and the last directive lacks its full stop. -/
theorem run_interprets_forms_unterminated :
    let hyphen := operator "-"
    let named := [hyphen, atom "module", symbol "(", atom "m", symbol ")", symbol "."]
    let form := [atom "a", hyphen, atom "define", symbol "."]
    let tokens :=
      [hyphen, atom "ifndef", symbol "(", var "U", symbol ")", symbol "."] ++ named ++
      [hyphen, atom "define", symbol "(", var "X", symbol ",", atom "x", symbol ")", symbol "."] ++
      [hyphen, atom "else", symbol "."] ++ [hyphen, atom "define", symbol "."] ++
      [hyphen, atom "error", symbol "(", loose .string "\"e\"", symbol ")", symbol "."] ++
      [hyphen, atom "endif", symbol "."] ++ form ++ [hyphen, atom "undef", symbol "(", var "X"]
    let w : World := { workingDirectory := ⟨.root, []⟩ }
    let p := initial { tokens } {} (.fixed [])
    let reading := interpret { macros := p.macros } (forms tokens)
    start { tokens } {} (.fixed []) = (.ok p, []) ∧ (∀ t ∈ tokens, t.isSymbol "?" = false) ∧
      (∀ form ∈ forms tokens, isInclude form = false) ∧ (∀ form ∈ forms tokens, misnamesModule form = false) ∧
      reading.tokens = named ++ form ∧ reading.ending = .failed (.diagnose (.missingStop "undef") (some {})) ∧
      reading.environment.macros.macros.map (·.name) = ["X"] ∧ reading.environment.directives.length = 4 ∧
      ∃ last : Preprocessor, last.environment = reading.environment ∧
        ∃ bound es, ∀ fuel ≥ bound, p.run w fuel = ⟨reading.tokens, reading.ending, last.close, es⟩ := by
  intro hyphen named form tokens w p reading
  have hstart : start { tokens } {} (.fixed []) = (.ok p, []) := rfl
  have hquestion : ∀ t ∈ tokens, t.isSymbol "?" = false := by decide +kernel
  have hincludes : ∀ form ∈ forms tokens, isInclude form = false := by decide +kernel
  have hname : ∀ form ∈ forms tokens, misnamesModule form = false := by decide +kernel
  have hrun := run_interprets_forms (w := w) hstart hquestion hincludes (.inr hname)
  refine ⟨hstart, hquestion, hincludes, hname, ?_, ?_, ?_, ?_, hrun⟩
  all_goals decide +kernel

/-- A module attribute whose name has no value is a form like any other, but the run fails at it. -/
theorem run_fails_at_unnamed_module :
    let first := [atom "b", symbol ".", operator "-", atom "module", symbol "("]
    let tokens := first ++ [atom "'\\xzz'", symbol ")", symbol "."]
    let w : World := { workingDirectory := ⟨.root, []⟩ }
    let p := initial { tokens } {} (.fixed [])
    let reading := interpret { macros := p.macros } (forms tokens)
    start { tokens } {} (.fixed []) = (.ok p, []) ∧ (∀ t ∈ tokens, t.isSymbol "?" = false) ∧
      (∀ form ∈ forms tokens, isInclude form = false) ∧ reading.tokens = tokens ∧ reading.ending = .stop ∧
      (p.run w 9).tokens = first ∧ (p.run w 9).ending = .failed (.fault (.escape .notANumber)) := by
  decide +kernel

end Preprocessor

end ErlangMacros
