import ErlangMacros.CommandLine

/-!
# The program

The command line works on a world that holds the files.  The program loads into that world what a run can come to
read: the sources, and every file that a string of a loaded file may name.  Then it runs the command line and prints
what that says.
-/

namespace ErlangMacros

namespace Program

/-- More steps than a run can take. -/
def fuel : Nat := 1_000_000_000_000

/-- The world with a place that is denied. -/
def deny (w : World) (place : List Text) : World :=
  { w with files := { w.files with denied := place :: w.files.denied } }

/-- Load what stands at a path, if anything. -/
def load (w : World) (path : Path) : IO World := do
  let place := w.workingDirectory.absolute path
  let here ← IO.currentDir
  let entry := here / place.toString.string
  match ← entry.metadata.toBaseIO with
  | .error _ => return w
  | .ok found =>
    match found.type with
    | .dir =>
      let w := { w with files := FileTree.makeDirectory [] w.files place.parts }
      match ← entry.readDir.toBaseIO with
      | .error (.permissionDenied ..) => return deny w place.parts
      | _ => return w
    | .file =>
      match ← (IO.FS.readBinFile entry).toBaseIO with
      | .ok content => return { w with files := w.files.write place.parts content }
      | .error _ => return deny { w with files := w.files.write place.parts .empty } place.parts
    | _ => return w

/-- The entries of a directory. -/
def entries (w : World) (path : Path) : IO (List Path) := do
  let here ← IO.currentDir
  match ← (here / (w.workingDirectory.absolute path).toString.string).readDir.toBaseIO with
  | .ok found => return found.toList.map fun e => path.child e.fileName
  | .error _ => return []

/-- Load a path and all that is below it. -/
partial def loadTree (w : World) (path : Path) : IO World := do
  let w ← load w path
  (← entries w path).foldlM loadTree w

/-- The values of the strings in a file. -/
def strings (w : World) (path : Text) : List Text :=
  match w.readText path with
  | .ok text => (Lexing.ofText text (some path)).tokens.filterMap fun t =>
      if t.kind = .string then t.value.toOption else none
  | .error _ => []

/-- Load the environment variable that a path starts with. -/
def loadVariable (w : World) (name : Text) : IO World := do
  match (Path.ofString name).components.head?.map Text.toList with
  | some (.char '$' :: cs) =>
    let key := Text.ofList cs
    match ← IO.getEnv key.string with
    | some value => return { w with environment := (key, value) :: w.environment }
    | none => return w
  | _ => return w

/-- Where a file that is named in another one may stand. -/
def places (w : World) (search : SearchPaths) (includer name : Text) : List Path :=
  let libraries := (w.substitute name).components.drop 1
  let applications := search.codePaths.flatMap fun root =>
    match w.find? root with
    | .ok (some (place, _)) => (w.files.children place).map root.child
    | _ => []
  search.candidates w name (Path.directoryOf includer) ++
    applications.map fun directory => w.workingDirectory.absolute (directory.join ⟨.relative, libraries⟩)

/-- Load the files that the files of a list may lead to, unless they have been `seen`. -/
partial def follow (w : World) (search : SearchPaths) (seen : List Path) : List Path → IO World
  | [] => return w
  | path :: rest => do
    if seen.contains path then follow w search seen rest
    else
      let names := strings w path.toString
      let w ← names.foldlM loadVariable w
      let named := names.flatMap (places w search path.toString)
      let w ← (named.filter fun p => (w.files.node? p.parts).isNone).foldlM load w
      follow w search (path :: seen) (named ++ rest)

/-- Load what a request can come to read. -/
def loadRequest (w : World) (r : CommandLine.Request) : IO World := do
  let search : SearchPaths :=
    { includePaths := (r.includePaths.filterMap (·.value?)).map Path.ofString
      codePaths := (r.codePaths.filterMap (·.value?)).map Path.ofString }
  let w ← (r.sources.map Path.ofString).foldlM loadTree w
  let w ← search.codePaths.foldlM load w
  let w ← (← search.codePaths.flatMapM (entries w)).foldlM load w
  match Batch.findSources w Batch.sourceSuffixes r.sources with
  | .ok sources => follow w search [] sources
  | .error _ => return w

/-- A text as it is written to the log, where a surrogate is shown by its code. -/
def escaped (t : Text) : String :=
  (Text.join (t.toList.map fun c => if c.isChar then c.toText else Text.shownChar c c)).string

/-- The world that the arguments are about. -/
def world (args : List Text) : IO World := do
  let workingDirectory := Path.ofString (Text.ofString (← IO.currentDir).toString)
  let w : World := { files := FileTree.makeDirectory [] {} workingDirectory.parts, workingDirectory }
  match CommandLine.parse args with
  | .ok request => loadRequest w request
  | .error _ => return w

end Program

end ErlangMacros

open ErlangMacros in
def main (args : List String) : IO UInt32 := do
  let args := args.map Text.ofString
  match CommandLine.run (← Program.world args) Program.fuel args with
  | .report r =>
    IO.eprint (Program.escaped r.stderr)
    if r.stdout.isEncodable then
      IO.print r.stdout.string
      return r.status.toUInt32
    else
      IO.eprintln (Program.escaped Fault.unencodable.message)
      return 1
  | .exit code stdout =>
    IO.print stdout.string
    if stdout.isEmpty then IO.eprint CommandLine.usage.string
    return code.toUInt32
  | .fault f =>
    IO.eprintln (Program.escaped f.message)
    return 1
