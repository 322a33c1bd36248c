import ErlangMacros.Preprocessor.Run
import ErlangMacros.Preprocessor.Settings

/-!
# Preprocessing many files

Directories are expanded into the source files they hold, and every file is preprocessed on its own.  The files
share the search for include files, so each is searched for only once.
-/

namespace ErlangMacros

namespace Batch

/-- The suffixes of source files. -/
def sourceSuffixes : List Text :=
  [".erl", ".hrl"]

/-- The files below a directory that have one of the suffixes, in the order of their paths.  No path below the
directory may be too long. -/
def filesBelow (w : World) (suffixes : List Text) (directory : Path) (place : List Text) :
    Except Fault (List Path) := do
  let below := (w.files.descendants place).map fun names => (directory.join ⟨.relative, names⟩, place ++ names)
  match below.find? fun p => World.longestPath < FileTree.byteSize p.1.toString with
  | some p => throw (.file .nameTooLong p.1.toString)
  | none =>
    let files := below.filterMap fun p =>
      match w.files.node? p.2 with
      | some (.file _) => some p.1
      | _ => none
    return (files.mergeSort Path.le).filter fun p => suffixes.contains p.suffix

/-- The source files that paths lead to.  A path that is no directory is kept whatever its suffix is. -/
def findSources (w : World) (suffixes : List Text) : List Text → Except Fault (List Path)
  | [] => .ok []
  | text :: texts => do
    let path := Path.ofString text
    let files ← match ← w.find? path with
      | some (place, .directory) => filesBelow w suffixes path place
      | _ => pure [path]
    return files ++ (← findSources w suffixes texts)

/-- What became of a file. -/
structure FileResult where
  filename : Text
  /-- The tokens produced, up to the failure if there was one. -/
  tokens : List Token := []
  warnings : List Diagnostic := []
  moduleName : Option Text := none
  failure : Option Failure := none
deriving DecidableEq

/-- The file was preprocessed to its end. -/
def FileResult.ok (r : FileResult) : Bool :=
  r.failure.isNone

/-- The outcome for one file, the search after it and what is told of it.  A fault ends the whole batch. -/
structure Outcome where
  result : Except Fault FileResult
  finder : Finder
  events : List Event

/-- A file that could not even be started. -/
def refused (path : Text) (f : Failure) (finder : Finder) (events : List Event) : Outcome :=
  ⟨.ok { filename := path, failure := some f }, finder, events ++ [.failed (path ++ ": " ++ f.message)]⟩

/-- The result of a run over a file. -/
def finished (path : Text) (run : Preprocessor.Run) (events : List Event) : Outcome :=
  let result (failure : Option Failure) : FileResult :=
    { filename := path, tokens := run.tokens, warnings := run.state.warnings.reverse,
      moduleName := run.state.moduleName, failure }
  let events := events ++ run.events
  match run.ending with
  | .failed (.fault f) => ⟨.error f, run.state.finder, events⟩
  | .failed (.error e) => ⟨.ok (result (some (.error e))), run.state.finder, events ++ [.failed e.message]⟩
  | .stop | .limit => ⟨.ok (result none), run.state.finder, events⟩

/-- Preprocess one file. -/
def processFile (w : World) (fuel : Nat) (settings : Settings) (finder : Finder) (path : Text) : Outcome :=
  let told := [Event.preprocessing path]
  match w.readText path with
  | .error (.file e p) => refused path (.fault (.file e p)) finder told
  | .error f => ⟨.error f, finder, told⟩
  | .ok text =>
    match { settings with includePaths := .null, codePaths := .null }.checkFor path with
    | .error f => ⟨.error f, finder, told⟩
    | .ok options =>
      let (started, events) := Preprocessor.start (.ofText text (some path)) options finder
      match started with
      | .error (.error e) => refused path (.error e) finder (told ++ events)
      | .error (.fault f) => ⟨.error f, finder, told ++ events⟩
      | .ok p => finished path (p.run w fuel) (told ++ events)

/-- Preprocess files one after the other with a shared search. -/
def processFiles (w : World) (fuel : Nat) (settings : Settings) (finder : Finder) :
    List Text → Except Fault (List FileResult) × List Event
  | [] => (.ok [], [])
  | path :: paths =>
    let o := processFile w fuel settings finder path
    match o.result with
    | .error f => (.error f, o.events)
    | .ok r =>
      let (rs, events) := processFiles w fuel settings o.finder paths
      (rs.map (r :: ·), o.events ++ events)

/-- Preprocess files, searching where the settings say. -/
def preprocess (w : World) (fuel : Nat) (settings : Settings) (paths : List Text) :
    Except Fault (List FileResult) × List Event :=
  match settings.finder with
  | .error f => (.error f, [])
  | .ok finder => processFiles w fuel settings finder paths

end Batch

end ErlangMacros
