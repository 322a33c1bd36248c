import ErlangMacros.Text.Integer

/-!
# Command line arguments

Arguments are sources and options.  A long option may be shortened as long as it stays unambiguous, its value may
follow after `=` or as the next argument, and short options can share one argument.  All sources stand side by side.
After `--` there are only sources.
-/

namespace ErlangMacros

namespace CommandLine

/-- The options. -/
inductive Flag where
  | help
  | version
  | verbose
  | includePath
  | codePath
  | define
  | moduleName
  | maxDepth
  | silent
  | spelling
  | summary
  | progress
deriving DecidableEq

namespace Flag

/-- The option is followed by a value. -/
def takesValue : Flag → Bool
  | includePath | codePath | define | moduleName | maxDepth => true
  | _ => false

/-- The names of the options. -/
def names : List (Text × Flag) :=
  [("-h", help), ("--help", help), ("--version", version), ("-v", verbose), ("--verbose", verbose),
   ("-I", includePath), ("--include-path", includePath), ("-L", codePath), ("--libs", codePath), ("-D", define),
   ("--module", moduleName), ("--max-depth", maxDepth), ("--silent", silent), ("--spelling", spelling),
   ("--summary", summary), ("--progress", progress)]

end Flag

/-- What an option that takes a value is given. -/
inductive Given (α : Type) where
  | value (a : α)
  /-- Only `--` stood attached to the option. -/
  | nothing
deriving DecidableEq

/-- The value itself. -/
def Given.value? {α : Type} : Given α → Option α
  | value a => some a
  | nothing => none

/-- What the arguments ask for. -/
structure Request where
  sources : List Text := []
  verbosity : Nat := 0
  includePaths : List (Given Text) := []
  codePaths : List (Given Text) := []
  defines : List (Given Text) := []
  moduleName : Option (Given Text) := none
  maxDepth : Given Int := .value 200
  silent : Bool := false
  spelling : Bool := false
  summary : Bool := false
  progress : Bool := false
deriving DecidableEq

/-- Why nothing is preprocessed. -/
inductive Exit where
  /-- The arguments are not understood. -/
  | usage
  | help
  | version
deriving DecidableEq

/-- An argument that looks like an option. -/
structure Recognized where
  /-- The option; `none` if there is no such option. -/
  flag : Option Flag
  /-- The option was given by its short name. -/
  short : Bool
  /-- The value after `=`, or the rest of an argument that starts with a short option. -/
  attached : Option Text := none
deriving DecidableEq

/-- The names that start with a dash and another character. -/
def isShort (name : Text) : Bool :=
  name.toList[1]? ≠ some (.char '-')

/-- The option with exactly this name. -/
def named? (name : List CodePoint) : Option Recognized :=
  (Flag.names.lookup (Text.ofList name)).map fun flag =>
    { flag := some flag, short := isShort (Text.ofList name) }

/-- The text before the first `=` and the text after it, if there is one. -/
def splitEquals (cs : List CodePoint) : List CodePoint × Option Text :=
  let before := cs.takeWhile (· ≠ CodePoint.char '=')
  (before, if before.length < cs.length then some (Text.ofList (cs.drop (before.length + 1))) else none)

/-- The options whose name starts with `cs`. -/
def startingWith (cs : List CodePoint) (attached : Option Text) : List Recognized :=
  (Flag.names.filter fun n => cs.isPrefixOf n.1.toList).map fun n =>
    { flag := some n.2, short := isShort n.1, attached }

/-- The readings of an argument that is not the name of an option. -/
def readings (cs : List CodePoint) : List Recognized :=
  if cs[1]? = some (.char '-') then
    let (name, value) := splitEquals cs
    startingWith name value
  else
    let front := cs.take 2
    (Flag.names.filter fun n => n.1.toList = front || cs.isPrefixOf n.1.toList).map fun n =>
      { flag := some n.2, short := isShort n.1,
        attached := if n.1.toList = front then some (Text.ofList (cs.drop 2)) else none }

/-- The argument looks like a negative number.  One newline may follow the number. -/
def isNegativeNumber (cs : List CodePoint) : Bool :=
  let isDecimal (c : CodePoint) : Bool := (Text.decimalValue? c).isSome
  match if cs.getLast? = some (.char '\n') then cs.dropLast else cs with
  | .char '-' :: ds =>
    let fraction := ds.dropWhile isDecimal
    match fraction with
    | [] => !ds.isEmpty
    | .char '.' :: digits => !digits.isEmpty && digits.all isDecimal
    | _ => false
  | _ => false

/-- The option that an argument is; `none` if it is a source or a value. -/
def recognize (arg : Text) : Except Exit (Option Recognized) :=
  let cs := arg.toList
  if cs.head? ≠ some (.char '-') then .ok none
  else
    match named? cs with
    | some r => .ok (some r)
    | none =>
      if cs.length = 1 then .ok none
      else
        let (name, value) := splitEquals cs
        match value, named? name with
        | some v, some r => .ok (some { r with attached := some v })
        | _, _ =>
          match readings cs with
          | [r] => .ok (some r)
          | _ :: _ => .error .usage
          | [] =>
            if isNegativeNumber cs || cs.contains ' ' then .ok none
            else .ok (some { flag := none, short := isShort arg })

/-- An argument and what it is. -/
inductive Word where
  | dashes
  | plain (text : Text)
  | option (r : Recognized)
deriving DecidableEq

/-- The text of an argument that is a source. -/
def Word.source? : Word → Option Text
  | dashes => none
  | plain text => some text
  | option _ => none

/-- The argument is an option. -/
def Word.isOption : Word → Bool
  | option _ => true
  | _ => false

/-- Tell what every argument is.  After `--` all are plain. -/
def classify : List Text → Except Exit (List Word)
  | [] => .ok []
  | arg :: args =>
    if arg = "--" then .ok (.dashes :: args.map .plain)
    else do
      let word := (← recognize arg).elim (Word.plain arg) .option
      return word :: (← classify args)

/-- The arguments that have been taken. -/
structure Taken where
  request : Request := {}
  /-- The sources have been taken. -/
  hasSources : Bool := false
  /-- Some arguments are not understood. -/
  hasExtras : Bool := false
deriving DecidableEq

/-- Take an option without a value. -/
def takeFlag (t : Taken) (flag : Flag) : Except Exit Taken :=
  let r := t.request
  match flag with
  | .help => .error .help
  | .version => .error .version
  | .verbose => .ok { t with request := { r with verbosity := r.verbosity + 1 } }
  | .silent => if r.spelling then .error .usage else .ok { t with request := { r with silent := true } }
  | .spelling => if r.silent then .error .usage else .ok { t with request := { r with spelling := true } }
  | .summary => .ok { t with request := { r with summary := true } }
  | .progress => .ok { t with request := { r with progress := true } }
  | _ => .error .usage

/-- Read the number of an option. -/
def givenNumber : Given Text → Except Exit (Given Int)
  | .nothing => .ok .nothing
  | .value text =>
    match Text.integer? 10 text.toList with
    | some n => .ok (.value n)
    | none => .error .usage

/-- Take an option with its value. -/
def takeValue (t : Taken) (flag : Flag) (value : Given Text) : Except Exit Taken :=
  let r := t.request
  match flag with
  | .includePath => .ok { t with request := { r with includePaths := r.includePaths ++ [value] } }
  | .codePath => .ok { t with request := { r with codePaths := r.codePaths ++ [value] } }
  | .define => .ok { t with request := { r with defines := r.defines ++ [value] } }
  | .moduleName => .ok { t with request := { r with moduleName := some value } }
  | .maxDepth => (givenNumber value).map fun maxDepth => { t with request := { r with maxDepth } }
  | _ => .error .usage

/-- Options that share one argument, in order. -/
structure Cluster where
  /-- The options without a value. -/
  flags : List Flag := []
  /-- The last option, if it takes a value, and the value if it is attached. -/
  last : Option (Flag × Option Text) := none
deriving DecidableEq

/-- An option with nothing attached. -/
def Cluster.alone (flag : Flag) : Cluster :=
  if flag.takesValue then { last := some (flag, none) } else { flags := [flag] }

/-- The options in the rest of an argument whose first option is `flag`.  An option that takes a value takes all that
is left; before it every letter is an option. -/
def Cluster.ofLetters (flag : Flag) : List CodePoint → Except Exit Cluster
  | [] => .ok (alone flag)
  | c :: cs =>
    if flag.takesValue then .ok { last := some (flag, some (Text.ofList (c :: cs))) }
    else
      match Flag.names.lookup (Text.ofList ['-', c]) with
      | none => .error .usage
      | some next => (ofLetters next cs).map fun k => { k with flags := flag :: k.flags }

/-- The options of an argument that starts with `flag`. -/
def Recognized.cluster (r : Recognized) (flag : Flag) : Except Exit Cluster :=
  match r.attached with
  | none => .ok (.alone flag)
  | some text =>
    if flag.takesValue then .ok { last := some (flag, some text) }
    else if r.short && text ≠ "" then Cluster.ofLetters flag text.toList
    else .error .usage

/-- The value that stands attached to an option. -/
def Given.ofAttached (text : Text) : Given Text :=
  if text = "--" then nothing else value text

/-- Take the options of one argument, and the next argument if it is the value of the last option. -/
def takeCluster (t : Taken) (k : Cluster) (words : List Word) : Except Exit (Taken × List Word) := do
  match k.last with
  | none => return (← k.flags.foldlM takeFlag t, words)
  | some (flag, some text) => return (← takeValue (← k.flags.foldlM takeFlag t) flag (.ofAttached text), words)
  | some (flag, none) =>
    match words with
    | .plain text :: rest => return (← takeValue (← k.flags.foldlM takeFlag t) flag (.value text), rest)
    | _ => throw .usage

/-- Take sources that stand side by side. -/
def takeSources (t : Taken) (words : List Word) : Taken :=
  let sources := words.filterMap Word.source?
  if t.hasSources || sources.isEmpty then { t with hasExtras := true }
  else { t with hasSources := true, request := { t.request with sources } }

/-- Take arguments in order; there are at most `bound` of them. -/
def takeAll (t : Taken) : Nat → List Word → Except Exit Taken
  | _, [] => .ok t
  | 0, _ :: _ => .ok t
  | bound + 1, word :: words =>
    match word with
    | .option r =>
      match r.flag with
      | none => takeAll { t with hasExtras := true } bound words
      | some flag => do
        let (t', rest) ← takeCluster t (← r.cluster flag) words
        takeAll t' bound rest
    | _ =>
      let run := (word :: words).takeWhile (!·.isOption)
      takeAll (takeSources t run) bound (words.drop (run.length - 1))

/-- Read command line arguments. -/
def parse (args : List Text) : Except Exit Request := do
  let words ← classify args
  let t ← takeAll {} words.length words
  if t.hasExtras || !t.hasSources || t.request.maxDepth.value?.any (· < 1) then throw .usage
  return t.request

end CommandLine

end ErlangMacros
