import ErlangMacros.Error
import ErlangMacros.Path

/-!
# Files and environment

`FileTree` holds files and directories by their place, the list of names that leads to them from the root.  `World`
adds the working directory and the environment variables.

A name is a text for a sequence of bytes.  Bytes that are no characters are written as the surrogates from U+DC80 on;
no other surrogate can stand in a path.  Two texts count as different names, even if their bytes are the same.
-/

namespace ErlangMacros

/-- What stands at a place of a file tree. -/
inductive Node where
  | directory
  | file (content : ByteArray)

/-- The files and directories below the root. -/
structure FileTree where
  entries : List (List Text × Node) := []
  /-- The files that may not be read, and the directories that may not be listed or gone through. -/
  denied : List (List Text) := []

namespace FileTree

/-- What stands at a place; the root is always there. -/
def node? (t : FileTree) (place : List Text) : Option Node :=
  if place.isEmpty then some .directory else t.entries.lookup place

/-- Take away what stands at a place. -/
def erase (t : FileTree) (place : List Text) : FileTree :=
  { t with entries := t.entries.filter (·.1 ≠ place) }

/-- Put a node at a place. -/
def put (t : FileTree) (place : List Text) (node : Node) : FileTree :=
  { t with entries := (t.erase place).entries ++ [(place, node)] }

/-- Make a directory and those on the way from `parent` to it. -/
def makeDirectory (parent : List Text) (t : FileTree) : List Text → FileTree
  | [] => t
  | name :: rest =>
    let place := parent ++ [name]
    makeDirectory place (if (t.node? place).isSome then t else t.put place .directory) rest

/-- Write a file, making its directory. -/
def write (t : FileTree) (place : List Text) (content : ByteArray) : FileTree :=
  (makeDirectory [] t place.dropLast).put place (.file content)

/-- The file may not be read, or the directory may not be listed or gone through. -/
def isDenied (t : FileTree) (place : List Text) : Bool :=
  t.denied.contains place

/-- The names of the entries of a directory.  There are none to be seen in a directory that is denied. -/
def children (t : FileTree) (place : List Text) : List Text :=
  if t.isDenied place then []
  else t.entries.filterMap fun e => if e.1.dropLast = place then e.1.getLast? else none

/-- The `inner` place is below the `outer` one. -/
def isBelow (outer inner : List Text) : Bool :=
  outer.isPrefixOf inner && outer.length < inner.length

/-- The places below a directory that are not below a denied one, relative to it. -/
def descendants (t : FileTree) (place : List Text) : List (List Text) :=
  t.entries.filterMap fun e =>
    if isBelow place e.1 && !t.denied.any (fun d => place.isPrefixOf d && isBelow d e.1) then
      some (e.1.drop place.length)
    else none

/-- The bytes that a code point takes in a path, `none` if it cannot stand there. -/
def codeSize? : CodePoint → Option Nat
  | .char c => some c.utf8Size
  | .surrogate n => if 0x480 ≤ n.val && n.val < 0x500 then some 1 else none

/-- The length of a path or a name in bytes. -/
def byteSize (text : Text) : Nat :=
  text.toList.foldl (fun n c => n + (codeSize? c).getD 0) 0

/-- The longest name of a file, in bytes. -/
def longestName : Nat := 255

/-- Follow names from a place on.  Only a directory can be gone through, and only if it is not denied. -/
def walk (t : FileTree) (here : List Text) : List Text → Except FileError (List Text × Node)
  | [] =>
    match t.node? here with
    | some n => .ok (here, n)
    | none => .error .notFound
  | name :: rest =>
    match t.node? here with
    | none => .error .notFound
    | some (.file _) => .error .notDirectory
    | some .directory =>
      if t.isDenied here then .error .denied
      else if name = "." then t.walk here rest
      else if name = ".." then t.walk here.dropLast rest
      else if longestName < byteSize name then .error .nameTooLong
      else t.walk (here ++ [name]) rest

end FileTree

/-- Make every line end a single newline. -/
def normalizeNewlines : List Char → List Char
  | [] => []
  | '\r' :: '\n' :: cs => '\n' :: normalizeNewlines cs
  | '\r' :: cs => '\n' :: normalizeNewlines cs
  | c :: cs => c :: normalizeNewlines cs

/-- Files, working directory and environment variables. -/
structure World where
  files : FileTree := {}
  /-- The working directory, which is anchored. -/
  workingDirectory : Path
  environment : List (Text × Text) := []

namespace World

/-- The names that a path text goes through.  A slash at its end asks for a directory. -/
def namesOf (path : Text) : List Text :=
  let names := (Path.splitSlashes [] path.toList).filter (!·.isEmpty)
  if path.toList.getLast? = some (.char '/') then names ++ [("." : Text)] else names

/-- The longest path, in bytes. -/
def longestPath : Nat := 4095

/-- Find what a path leads to.  A path that is too long is not followed at all. -/
def locate (w : World) (path : Text) : Except FileError (List Text × Node) :=
  if path = "" then .error .notFound
  else if longestPath < FileTree.byteSize path then .error .nameTooLong
  else
    let start := if path.toList.head? = some (.char '/') then [] else w.workingDirectory.parts
    w.files.walk start (namesOf path)

/-- A path cannot hold a null character. -/
def hasNull (path : Text) : Bool :=
  path.toList.contains '\x00'

/-- Every code point of a path can stand there. -/
def isEncodable (path : Text) : Bool :=
  path.toList.all fun c => (FileTree.codeSize? c).isSome

/-- What a path leads to, if anything.  A path or a name that is too long is a fault, and so is a directory on the way
that is denied. -/
def find? (w : World) (path : Path) : Except Fault (Option (List Text × Node)) :=
  if !isEncodable path.toString || hasNull path.toString then .ok none
  else
    match w.locate path.toString with
    | .ok found => .ok (some found)
    | .error .nameTooLong => .error (.file .nameTooLong path.toString)
    | .error .denied => .error (.file .denied path.toString)
    | .error _ => .ok none

/-- The path leads to a file. -/
def isFile (w : World) (path : Path) : Except Fault Bool :=
  (w.find? path).map fun
    | some (_, .file _) => true
    | _ => false

/-- The text of a file. -/
def readText (w : World) (path : Text) : Except Fault Text :=
  if !isEncodable path then .error .unencodable
  else if hasNull path then .error .invalidPath
  else
    match w.locate path with
    | .error e => .error (.file e path)
    | .ok (place, node) =>
      if w.files.isDenied place then .error (.file .denied path)
      else
        match node with
        | .directory => .error (.file .isDirectory path)
        | .file content =>
          match String.fromUTF8? content with
          | some text => .ok (Text.ofList ((normalizeNewlines text.toList).map .char))
          | none => .error (.notText path)

end World

end ErlangMacros
