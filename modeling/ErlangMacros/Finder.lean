import ErlangMacros.Event
import ErlangMacros.Path.Pattern
import ErlangMacros.World

/-!
# Finding include files

An include file is searched in the directory of the including file and then in the include paths.  A library file
that is not found so is searched in the applications of the code paths; an application directory is named by the
application alone or with a version.  What a search of the first kind found is remembered, and so is that it found
nothing.
-/

namespace ErlangMacros

/-- The path can be searched for: it is not empty and holds no null character. -/
def isUsablePath (path : Text) : Bool :=
  path ≠ "" && !World.hasNull path

/-- What is told about a path that cannot be searched for. -/
def pathEvents (path : Text) : List Event :=
  if path = "" then [.emptyIncludePath] else if World.hasNull path then [.nullInIncludePath path] else []

/-- Replace a first component `$NAME` by the value of the environment variable, if it is set. -/
def World.substitute (w : World) (path : Text) : Path :=
  let p := Path.ofString path
  match p.components with
  | first :: rest =>
    match first.toList with
    | .char '$' :: name =>
      match w.environment.lookup (Text.ofList name) with
      | some value => (Path.ofString value).join ⟨.relative, rest⟩
      | none => p
    | _ => p
  | [] => p

/-- The variable that a path starts with, if it starts with one, has a name that the environment can be asked for. -/
def World.isSubstitutable (path : Text) : Bool :=
  match (Path.ofString path).components.head?.map Text.toList with
  | some (.char '$' :: name) => World.isEncodable (Text.ofList name)
  | _ => true

/-- The first path that satisfies a test which may fail. -/
def firstFile (w : World) : List Path → Except Fault (Option Path)
  | [] => .ok none
  | p :: ps =>
    match w.isFile p with
    | .error f => .error f
    | .ok true => .ok (some p)
    | .ok false => firstFile w ps

/-- The paths that are searched, and what earlier searches found. -/
structure SearchPaths where
  includePaths : List Path := []
  codePaths : List Path := []
  found : List ((Text × Text) × Option Path) := []
deriving DecidableEq

namespace SearchPaths

/-- The directory that a search starts from. -/
def startDirectory (w : World) (directory : Option Path) : Path :=
  directory.getD w.workingDirectory

/-- Where an include file may be, in the order of search. -/
def candidates (s : SearchPaths) (w : World) (name : Text) (directory : Path) : List Path :=
  (directory :: s.includePaths).map fun d => w.workingDirectory.absolute (d.join (w.substitute name))

/-- Search for an include file, whatever earlier searches found. -/
def search (s : SearchPaths) (w : World) (name : Text) (directory : Path) : Except Fault (Option Path) :=
  if World.isSubstitutable name then firstFile w (s.candidates w name directory) else .error .unencodable

/-- Find an include file, or remember what an earlier search found. -/
def findInclude (s : SearchPaths) (w : World) (name : Text) (directory : Option Path) :
    Except Fault (Option Path) × SearchPaths :=
  if isUsablePath name then
    let start := startDirectory w directory
    let key := (name, start.toString)
    match s.found.lookup key with
    | some known => (.ok known, s)
    | none =>
      match s.search w name start with
      | .ok result => (.ok result, { s with found := (key, result) :: s.found })
      | .error f => (.error f, s)
  else (.ok none, s)

/-- The pattern for the versions of an application, which has to be a plain name. -/
def versionPattern (app : Text) : Except Fault Text :=
  let pattern := app ++ "-*"
  if (Path.ofString pattern).anchor ≠ .relative then .error .absolutePattern
  else if Pattern.hasDoubleStar pattern.toList then .error .invalidPattern
  else .ok pattern

/-- The directories of an application in a code path: by its name, and by its versions in order. -/
def applicationDirectories (w : World) (root : Path) (app : Text) : Except Fault (List Path) :=
  match versionPattern app, w.find? root with
  | .error f, _ => .error f
  | _, .error f => .error f
  | .ok pattern, .ok (some (place, .directory)) =>
    let versions := (w.files.children place).filter (matchesPattern pattern)
    .ok (root.join (.ofString app) :: (versions.map root.child).mergeSort Path.le)
  | .ok _, .ok _ => .ok [root.join (.ofString app)]

/-- Search the applications of code paths for a file. -/
def searchApplications (w : World) (app : Text) (rest : List Text) : List Path → Except Fault (Option Path)
  | [] => .ok none
  | root :: roots =>
    match applicationDirectories w root app with
    | .error f => .error f
    | .ok directories =>
      match firstFile w (directories.map fun d => d.join ⟨.relative, rest⟩) with
      | .error f => .error f
      | .ok (some p) => .ok (some (w.workingDirectory.absolute p))
      | .ok none => searchApplications w app rest roots

/-- Find a library file. -/
def findLibrary (s : SearchPaths) (w : World) (name : Text) (directory : Option Path) :
    Except Fault (Option Path) × SearchPaths :=
  match s.findInclude w name directory with
  | (.ok none, s') =>
    if World.isSubstitutable name then
      match (w.substitute name).components with
      | app :: part :: rest => (searchApplications w app (part :: rest) s.codePaths, s')
      | _ => (.ok none, s')
    else (.error .unencodable, s')
  | r => r

end SearchPaths

/-- How include files are found: by searching, or in a fixed table. -/
inductive Finder where
  | search (paths : SearchPaths)
  | fixed (table : List (Text × Option Path))
deriving DecidableEq

namespace Finder

/-- A search of the given paths that has found nothing yet. -/
def ofPaths (includePaths codePaths : List Text) : Finder :=
  .search { includePaths := includePaths.map Path.ofString, codePaths := codePaths.map Path.ofString }

/-- Find an include file, or a library file if `library`. -/
def find (f : Finder) (w : World) (library : Bool) (name : Text) (directory : Option Path) :
    Except Fault (Option Path) × Finder :=
  match f with
  | search s =>
    let (result, s') := if library then s.findLibrary w name directory else s.findInclude w name directory
    (result, .search s')
  | fixed table => (.ok (table.lookup name).join, f)

/-- What is told about a search. -/
def events (f : Finder) (name : Text) : List Event :=
  match f with
  | search _ => pathEvents name
  | fixed _ => []

end Finder

end ErlangMacros
