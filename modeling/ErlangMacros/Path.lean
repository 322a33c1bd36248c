import ErlangMacros.Text

/-!
# Paths

A path is anchored at the root or relative, and has a list of parts.  Empty parts and single dots vanish when a path
is read, but double dots stay: only `normalized` resolves them.
-/

namespace ErlangMacros

/-- What a path is relative to.  Exactly two slashes at the front are a root of their own. -/
inductive Anchor where
  | relative
  | root
  | doubleRoot
deriving DecidableEq

namespace Anchor

/-- The anchor as it is written. -/
def text : Anchor → Text
  | relative => ""
  | root => "/"
  | doubleRoot => "//"

end Anchor

/-- A path in a file system. -/
structure Path where
  anchor : Anchor := .relative
  parts : List Text := []
deriving DecidableEq

namespace Path

/-- The pieces of a text between slashes; `piece` is the piece that has been read so far, in reverse. -/
def splitSlashes (piece : List CodePoint) : List CodePoint → List Text
  | [] => [Text.ofList piece.reverse]
  | c :: cs =>
    if c = '/' then Text.ofList piece.reverse :: splitSlashes [] cs else splitSlashes (c :: piece) cs

/-- The anchor of a path text. -/
def anchorOf (cs : List CodePoint) : Anchor :=
  match (cs.takeWhile (· = CodePoint.char '/')).length with
  | 0 => .relative
  | 2 => .doubleRoot
  | _ => .root

/-- Read a path. -/
def ofString (text : Text) : Path :=
  ⟨anchorOf text.toList, (splitSlashes [] text.toList).filter fun part => part ≠ "" && part ≠ "."⟩

/-- A path as it is written. -/
def toString (p : Path) : Text :=
  let text := p.anchor.text ++ Text.intercalate "/" p.parts
  if text = "" then "." else text

/-- The components of a path: its anchor, if it has one, and its parts. -/
def components (p : Path) : List Text :=
  if p.anchor = .relative then p.parts else p.anchor.text :: p.parts

/-- The path `b` seen from `a`. -/
def join (a b : Path) : Path :=
  if b.anchor = .relative then { a with parts := a.parts ++ b.parts } else b

/-- The path of an entry of a directory. -/
def child (p : Path) (name : Text) : Path :=
  { p with parts := p.parts ++ [name] }

/-- Resolve double dots in the parts after `done`, which is in reverse. -/
def resolveDots (done : List Text) : List Text → List Text
  | [] => done.reverse
  | part :: rest => if part = ".." then resolveDots done.tail rest else resolveDots (part :: done) rest

/-- An anchored path without double dots. -/
def normalized (p : Path) : Path :=
  { p with parts := resolveDots [] p.parts }

/-- The absolute form of a path seen from an anchored directory. -/
def absolute (directory p : Path) : Path :=
  (directory.join p).normalized

/-- The directory of a file. -/
def directoryOf (filename : Text) : Path :=
  ofString (Text.ofList (filename.toList.reverse.dropWhile (· ≠ CodePoint.char '/')).reverse)

/-- The last part. -/
def name (p : Path) : Text :=
  p.parts.getLast?.getD ""

/-- The suffix of the last part, with its dot.  A dot at either end of the name starts no suffix. -/
def suffix (p : Path) : Text :=
  let cs := p.name.toList
  let after := (cs.reverse.takeWhile (· ≠ CodePoint.char '.')).reverse
  if 0 < after.length && after.length + 1 < cs.length then Text.ofList ('.' :: after) else ""

/-- Lexicographic order of components. -/
def componentsLE : List Text → List Text → Bool
  | [], _ => true
  | _ :: _, [] => false
  | a :: as, b :: bs => if a = b then componentsLE as bs else a < b

/-- Paths are ordered by their components. -/
def le (a b : Path) : Bool :=
  componentsLE a.components b.components

end Path

end ErlangMacros
