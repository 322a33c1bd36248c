import ErlangMacros.Batch
import ErlangMacros.CommandLine.Arguments

/-!
# The command line

Preprocess the files that the arguments name, and say what to print and which status to exit with.
-/

namespace ErlangMacros

namespace CommandLine

/-- The version of the program. -/
def version : Text := "1.0.0"

/-- The name of the program. -/
def program : Text := "erlpp"

/-- What a run of the program prints. -/
structure Report where
  status : Nat
  stdout : Text
  /-- The lines of the log. -/
  stderr : Text
deriving DecidableEq

/-- How a run of the program ends. -/
inductive Result where
  /-- The files were preprocessed. -/
  | report (r : Report)
  /-- The arguments ended the run. -/
  | exit (code : Nat) (stdout : Text)
  /-- A fault ended the run. -/
  | fault (f : Fault)
deriving DecidableEq

/-- The setting for what an option is given. -/
def Given.setting {α : Type} (ofValue : α → Setting) : Given α → Setting
  | value a => ofValue a
  | nothing => .list []

/-- The settings that a request asks for. -/
def Request.settings (r : Request) : Settings :=
  let texts (ts : List (Given Text)) : Setting := .list (ts.map (·.setting .text))
  { includePaths := texts r.includePaths
    codePaths := texts r.codePaths
    defines := texts r.defines
    moduleName := (r.moduleName.map (·.setting .text)).getD .null
    maxDepth := r.maxDepth.setting .int }

/-- The line for a token. -/
def tokenLine (t : Token) : Text :=
  "[" ++ t.position.toString ++ "] " ++ t.text ++ "\n"

/-- The summary line of a file. -/
def summaryLine (r : Batch.FileResult) : Text :=
  let status := if r.ok then "ok" else "failed"
  r.filename ++ ": " ++ Text.ofInt r.tokens.length ++ " tokens, " ++
    Text.ofInt r.warnings.length ++ " warnings, " ++ status ++ "\n"

/-- What is printed for a file. -/
def fileText (request : Request) (r : Batch.FileResult) : Text :=
  let tokens :=
    if request.spelling then respell r.tokens
    else if request.silent then ""
    else Text.join (r.tokens.map tokenLine)
  if request.summary then tokens ++ summaryLine r else tokens

/-- The event is shown at a verbosity: warnings and errors always, everything else from two on. -/
def isLogged (verbosity : Nat) (e : Event) : Bool :=
  e.level ≠ .debug || 2 ≤ verbosity

/-- The log of events. -/
def logText (verbosity : Nat) (events : List Event) : Text :=
  Text.join ((events.filter (isLogged verbosity)).map Event.line)

/-- The fault of a depth that is not given as a number. -/
def unorderedDepth : Fault :=
  .setting "'<' not supported between instances of 'list' and 'int'"

/-- Preprocess what a request asks for. -/
def serve (w : World) (fuel : Nat) (request : Request) : Result :=
  match Batch.findSources w Batch.sourceSuffixes request.sources with
  | .error f => .fault f
  | .ok sources =>
    match Batch.preprocess w fuel request.settings (sources.map Path.toString) with
    | (.error f, _) => .fault f
    | (.ok results, events) =>
      .report
        { status := if results.all (·.ok) then 0 else 1
          stdout := Text.join (results.map (fileText request))
          stderr := logText request.verbosity events }

/-- The usage in short. -/
def usage : Text :=
  "usage: " ++ program ++ " [-h] [--version] [-v] [-I <path>] [-L <path>] [-D <name>[=<value>]] [--module <name>] " ++
  "[--max-depth <depth>] [--silent | --spelling] [--summary] [--progress] <source> [<source> ...]\n"

/-- Run the program. -/
def run (w : World) (fuel : Nat) (args : List Text) : Result :=
  match parse args with
  | .ok request => if request.maxDepth = .nothing then .fault unorderedDepth else serve w fuel request
  | .error .usage => .exit 2 ""
  | .error .help => .exit 0 usage
  | .error .version => .exit 0 (program ++ " " ++ version ++ "\n")

end CommandLine

end ErlangMacros
