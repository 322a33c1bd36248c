import ErlangMacros.Preprocessor

/-!
# Settings

Options may come from a document, where every value can have any type.  `Settings.check` turns such values into
options, or says which of them has the wrong type.
-/

namespace ErlangMacros

/-- A value of a document. -/
inductive Setting where
  | null
  | bool (b : Bool)
  | int (n : Int)
  | float (isZero : Bool)
  | text (s : Text)
  | list (items : List Setting)
  | object (keys : List Text)

namespace Setting

/-- The name of a value's type. -/
def typeName : Setting → Text
  | null => "NoneType"
  | bool _ => "bool"
  | int _ => "int"
  | float _ => "float"
  | text _ => "str"
  | list _ => "list"
  | object _ => "dict"

/-- The text that a value is. -/
def text? : Setting → Option Text
  | text s => some s
  | _ => none

/-- The number that a value counts as: truth values count as zero and one. -/
def int? : Setting → Option Int
  | int n => some n
  | bool b => some (if b then 1 else 0)
  | _ => none

/-- The value is missing, or as good as missing. -/
def isEmpty : Setting → Bool
  | null => true
  | bool b => !b
  | int n => n = 0
  | float isZero => isZero
  | text s => s = ""
  | list items => items.isEmpty
  | object keys => keys.isEmpty

/-- The items of a value: the elements of a list, the keys of an object, the characters of a text. -/
def items : Setting → Except Fault (List Setting)
  | list items => .ok items
  | object keys => .ok (keys.map text)
  | text s => .ok (s.toList.map fun c => text c.toText)
  | v => .error (.setting ("'" ++ v.typeName ++ "' object is not iterable"))

/-- The items of a value that is a collection of texts, but not itself a text. -/
def texts (v : Setting) (complaint : Text) : Except Fault (List Text) :=
  match v with
  | null => .ok []
  | text _ => .error (.setting complaint)
  | v =>
    match v.items with
    | .error f => .error f
    | .ok items =>
      match items.mapM text? with
      | some texts => .ok texts
      | none => .error (.setting complaint)

/-- A value that is a text or missing. -/
def optionalText (v : Setting) (complaint : Text) : Except Fault (Option Text) :=
  match v with
  | null => .ok none
  | text s => .ok (some s)
  | _ => .error (.setting complaint)

/-- A value that is a positive number.  Messages show it as it was given. -/
def depthLimit (v : Setting) (complaint : Text) : Except Fault DepthLimit :=
  match v.int? with
  | some n =>
    if n < 1 then .error (.setting complaint)
    else .ok ⟨n, match v with | bool b => Text.shownBool b | _ => Text.ofInt n⟩
  | none => .error (.setting complaint)

/-- The paths that a value lists.  A value that is as good as missing lists none. -/
def pathTexts (v : Setting) : Except Fault (List Text) :=
  if v.isEmpty then .ok []
  else
    match v.items with
    | .error f => .error f
    | .ok items => items.mapM fun item =>
      match item.text? with
      | some s => .ok s
      | none => .error (.setting ("expected str, bytes or os.PathLike object, not " ++ item.typeName))

end Setting

/-- Options whose types have not been checked. -/
structure Settings where
  /-- The file name, if one is given. -/
  filename : Option Setting := none
  includePaths : Setting := .null
  codePaths : Setting := .null
  defines : Setting := .null
  moduleName : Setting := .null
  maxDepth : Setting := .int 200

namespace Settings

/-- Check the types of all settings, in order. -/
def check (s : Settings) : Except Fault Options := do
  let filename ← (s.filename.getD .null).optionalText "'filename' must be PathLike."
  let includePaths ← s.includePaths.texts "Each path in 'include_paths' must be PathLike."
  let codePaths ← s.codePaths.texts "Each path in 'code_paths' must be PathLike."
  let defines ← s.defines.texts "Each definition in 'defines' must be a string."
  let moduleName ← s.moduleName.optionalText "'module_name' must be a string."
  let limit ← s.maxDepth.depthLimit "'max_depth' must be a positive integer."
  return { filename, includePaths, codePaths, defines, moduleName, limit }

/-- Check the settings for a file.  Its path is its name, so that no other can be given. -/
def checkFor (s : Settings) (path : Text) : Except Fault Options :=
  if s.filename.isSome then .error (.settingKnown "filename") else { s with filename := some (.text path) }.check

/-- The search that the settings ask for. -/
def finder (s : Settings) : Except Fault Finder := do
  let includePaths ← s.includePaths.pathTexts
  let codePaths ← s.codePaths.pathTexts
  return .ofPaths includePaths codePaths

end Settings

end ErlangMacros
