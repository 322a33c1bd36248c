import ErlangMacros.Preprocessor

/-!
# Evaluating directives

Each directive changes the state of the run, or fails.  While tokens are suppressed only conditionals are
evaluated, so that their nesting is still tracked.
-/

namespace ErlangMacros

namespace Preprocessor

/-- What a step of a run comes to. -/
inductive Outcome where
  | emit (t : Token)
  | proceed
  | finish
  | fail (f : Failure)
deriving DecidableEq

/-- A step of a run: what it comes to, the state after it, and what is told of it. -/
structure Step where
  outcome : Outcome
  state : Preprocessor
  events : List Event := []
deriving DecidableEq

namespace Step

/-- The step with more told before. -/
def after (events : List Event) (s : Step) : Step :=
  { s with events := events ++ s.events }

/-- The step that fails. -/
def failed (p : Preprocessor) (f : Failure) : Step :=
  ⟨.fail f, p, []⟩

/-- The step that changes the state. -/
def changed (p : Preprocessor) (events : List Event := []) : Step :=
  ⟨.proceed, p, events⟩

end Step

/-- Go on with the name that a token stands for. -/
def withName (p : Preprocessor) (t : Token) (k : Text → Step) : Step :=
  match t.nameValue with
  | .ok name => k name
  | .error e => .failed p (.fault (.escape e))

/-- Define a macro. -/
def evalDefine (p : Preprocessor) (name : Token) (params : Option (List Token)) (body : List Token) : Step :=
  match Macro.make name params body with
  | .error e => .failed p (.fault (.escape e))
  | .ok m =>
    match p.macros.define m with
    | .ok macros => .changed { p with macros } [.defined m]
    | .error e => .failed p (.error e)

/-- Undefine a macro. -/
def evalUndef (p : Preprocessor) (name : Text) (position : Position) : Step :=
  match p.macros.undef name (some position) with
  | .ok macros => .changed { p with macros } [.undefined name]
  | .error e => .failed p (.error e)

/-- Change the stack of conditionals. -/
def evalConditional (p : Preprocessor) (stack : Except Error Conditional.Stack) : Step :=
  match stack with
  | .ok conditions => .changed { p with conditions }
  | .error e => .failed p (.error e)

/-- Read a file that was found before the rest of the current source. -/
def enter (p : Preprocessor) (w : World) (path : Path) (position : Position) : Step :=
  match w.readText path.toString with
  | .error (.file e _) =>
    .failed p (.diagnose (.includeUnreadable path.toString e.reason) (some position))
  | .error f => .failed p (.fault f)
  | .ok text =>
    let file := some path.toString
    match p.reader.inclusion.push (.ofText text file (some position)) with
    | .ok inclusion => .changed { p with reader := { p.reader with inclusion } } [.entering file]
    | .error e => .failed p (.error e)

/-- Find an include file and read it before the rest of the current source. -/
def evalInclude (p : Preprocessor) (w : World) (library : Bool) (path : Token) (position : Position) : Step :=
  match path.value with
  | .error e => .failed p (.fault (.escape e))
  | .ok name =>
    let directory := p.reader.inclusion.current.filename.map Path.directoryOf
    let (found, finder) := p.finder.find w library name directory
    let told := p.finder.events name
    let p := { p with finder }
    match found with
    | .error f => (Step.failed p (.fault f)).after told
    | .ok none => (Step.failed p (.diagnose (.includeNotFound name) (some position))).after told
    | .ok (some file) => (p.enter w file position).after told

/-- Set the file name and the line that the current source reports. -/
def evalFile (p : Preprocessor) (d : Directive) (name line : Token) : Step :=
  match name.value, integerValue? line.text with
  | .ok filename, some n =>
    let inclusion := p.reader.inclusion
    let current := inclusion.current.setFile filename n d.lastLine
    .changed { p with reader := { p.reader with inclusion := { inclusion with current } } }
  | .error e, _ => .failed p (.fault (.escape e))
  | .ok _, none => .failed p (.fault (.rejected (.invalidLine line.text)))

/-- Evaluate a directive. -/
def evaluate (w : World) (p : Preprocessor) (d : Directive) : Step :=
  let position := d.position
  match d.action with
  | .define name params body => p.evalDefine name params body
  | .undef name => p.withName name fun n => p.evalUndef n position
  | .ifdef name => p.withName name fun n =>
    p.evalConditional (.ok (p.conditions.push (p.macros.isDefined n) (some position)))
  | .ifndef name => p.withName name fun n =>
    p.evalConditional (.ok (p.conditions.push (!p.macros.isDefined n) (some position)))
  | .otherwise => p.evalConditional (p.conditions.flip (some position))
  | .endif => p.evalConditional (p.conditions.close (some position))
  | .includeFile path => p.evalInclude w false path position
  | .includeLib path => p.evalInclude w true path position
  | .error message => .failed p (.diagnose (.user message) (some position))
  | .warning message =>
    let warning : Diagnostic := ⟨some position, message⟩
    .changed (p.warn warning) [.warned warning]
  | .file name line => p.evalFile d name line

/-- The second token is the keyword of a conditional. -/
def isConditional (tokens : List Token) : Bool :=
  (tokens[1]?.bind fun t => Keyword.ofText? t.text).any Keyword.isConditional

/-- The step that skips a directive. -/
def skip (p : Preprocessor) (tokens : List Token) : Step :=
  match tokens with
  | hyphen :: keyword :: _ => .changed p [.skipping keyword.text hyphen.position]
  | _ => .changed p

/-- Take the tokens of a directive: parse and evaluate it, or skip it while tokens are suppressed. -/
def directive (w : World) (p : Preprocessor) (tokens : List Token) : Step :=
  let p := { p with formStart := true }
  if p.conditions.active || isConditional tokens then
    match Directive.parse tokens with
    | .ok d => evaluate w { p with directives := d :: p.directives } d
    | .error f => .failed p f
  else p.skip tokens

end Preprocessor

end ErlangMacros
