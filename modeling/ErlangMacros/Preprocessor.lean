import ErlangMacros.Conditional
import ErlangMacros.Directive.Parser
import ErlangMacros.Finder
import ErlangMacros.Macro.Definition
import ErlangMacros.Macro.Expansion

/-!
# The preprocessor

The state of a run: the macros that are defined, the open conditionals, the pending tokens, and what has been seen
so far.  `Preprocessor.start` makes the state at the beginning.
-/

namespace ErlangMacros

/-- How a run is set up. -/
structure Options where
  filename : Option Text := none
  includePaths : List Text := []
  codePaths : List Text := []
  /-- Definitions such as `NAME=value`. -/
  defines : List Text := []
  /-- The module name, if it does not come from the input. -/
  moduleName : Option Text := none
  limit : DepthLimit := .ofInt 200
deriving DecidableEq

/-- The state of a run. -/
structure Preprocessor where
  filename : Option Text
  limit : DepthLimit
  finder : Finder
  macros : MacroTable := {}
  conditions : Conditional.Stack := {}
  reader : Reader
  moduleName : Option Text
  /-- The module name was set up and is not taken from the input. -/
  moduleFixed : Bool
  /-- The directives that were parsed, the last one first. -/
  directives : List Directive := []
  /-- The macro calls that stood in a source, the last one first. -/
  calls : List MacroCall := []
  /-- The warnings, the last one first. -/
  warnings : List Diagnostic := []
  /-- The next token starts a form. -/
  formStart : Bool := true
  /-- The tokens after the `-` of an attribute that may be the module attribute. -/
  watched : Option (List Token) := none
  /-- No more tokens are produced. -/
  done : Bool := false
deriving DecidableEq

namespace Preprocessor

/-- Define macros in order, and tell of each. -/
def defineAll (macros : MacroTable) : List Text → Except Failure MacroTable × List Event
  | [] => (.ok macros, [])
  | text :: texts =>
    match Macro.ofDefinition text with
    | .error f => (.error f, [])
    | .ok m =>
      match macros.define m with
      | .error e => (.error (.error e), [])
      | .ok macros' => let (r, es) := defineAll macros' texts; (r, .defined m :: es)

/-- The state before any token is read and any macro is defined. -/
def initial (stream : Lexing) (options : Options) (finder : Finder) : Preprocessor :=
  { filename := options.filename
    limit := options.limit
    finder
    reader := { inclusion := { current := { filename := options.filename, stream }, limit := options.limit } }
    moduleName := options.moduleName
    moduleFixed := options.moduleName.isSome }

/-- Start a run over the tokens of `stream`. -/
def start (stream : Lexing) (options : Options) (finder : Finder) : Except Failure Preprocessor × List Event :=
  let p := initial stream options finder
  let (r, es) := defineAll {} options.defines
  (r.map fun macros => { p with macros }, es)

/-- The search that the options ask for. -/
def finderOf (options : Options) : Finder :=
  .ofPaths options.includePaths options.codePaths

/-- Stop producing tokens and drop pending input. -/
def close (p : Preprocessor) : Preprocessor :=
  { p with done := true, reader := p.reader.clear }

/-- Record a warning. -/
def warn (p : Preprocessor) (d : Diagnostic) : Preprocessor :=
  { p with warnings := d :: p.warnings }

/-- What the expansion of calls depends on. -/
def context (p : Preprocessor) : Expansion.Context :=
  ⟨p.macros, p.moduleName, p.limit⟩

/-- The preprocessor in short. -/
def shown (p : Preprocessor) : Text :=
  let filename := Text.shownOption p.filename
  let moduleName := Text.shownOption p.moduleName
  "Preprocessor(filename=" ++ filename ++ ",module_name=" ++ moduleName ++ ",max_depth=" ++ p.limit.label ++ ")"

end Preprocessor

end ErlangMacros
