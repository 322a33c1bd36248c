import ErlangMacros.Macro.Call
import ErlangMacros.Macro.Table

/-!
# Expanding macro calls

A call is resolved by reading its name, and its arguments if the macro takes any.  Its expansion is pushed onto the
reader, one level deeper than the call, and so is itself scanned for calls.
-/

namespace ErlangMacros

namespace Expansion

/-- What the expansion of a call depends on besides the pending tokens. -/
structure Context where
  macros : MacroTable
  moduleName : Option Text
  limit : DepthLimit
deriving DecidableEq

/-- The place of a call: its question mark, the depth of its expansion and the site of the outermost call. -/
structure Site where
  question : Token
  depth : Int
  callSite : Position
deriving DecidableEq

/-- The place of a call whose question mark has just been read. -/
def Site.ofReader (r : Reader) (question : Token) : Site :=
  { question, depth := r.depth + 1, callSite := r.callSite.getD question.position }

/-- What a call stands for. -/
inductive Meaning where
  | predefined (token : Token)
  | definition (m : Macro) (args : Option (List (List Token)))
deriving DecidableEq

/-- A call whose name and arguments have been read. -/
structure Call where
  name : Text
  nameToken : Token
  meaning : Meaning
deriving DecidableEq

/-- The arguments of a call. -/
def Call.args (c : Call) : Option (List (List Token)) :=
  match c.meaning with
  | .predefined _ => none
  | .definition _ args => args

/-- The token that a predefined macro stands for.  It describes the outermost call. -/
def predefinedToken (ctx : Context) (source : Source) (site : Site) (p : Predefined) : Except Failure Token :=
  let make (kind : Kind) (text : Text) : Token := ⟨kind, text, site.callSite, site.question.spaced⟩
  let ofModule (f : Text → Token) : Except Failure Token :=
    match ctx.moduleName with
    | some name => .ok (f name)
    | none => .error (.diagnose (.noModule p.name) (some site.question.position))
  match p with
  | .line => .ok (make .integer (toString (source.logicalLine site.callSite.line)))
  | .file =>
    match source.logicalFilename with
    | some name => .ok (make .string (quoteString name))
    | none => .error (.diagnose .noFileName (some site.question.position))
  | .machine => .ok (make .atom "'BEAM'")
  | .moduleString => ofModule fun name => make .string (quoteString name)
  | .moduleAtom => ofModule fun name => make .atom (quoteAtom name)

/-- Choose the variant of a macro for the arguments that were read.  If no variant takes them, they are put back in
favour of the variant without arguments. -/
def choose (ctx : Context) (site : Site) (name : Text) (nameToken : Token)
    (arguments : Option Reader.Arguments) (r : Reader) : Except Failure Call × Reader :=
  let call (args : Option (List (List Token))) (r : Reader) : Except Failure Call × Reader :=
    match ctx.macros.lookup name (args.map fun as => as.length) (some site.question.position) with
    | .ok m => (.ok ⟨name, nameToken, .definition m args⟩, r)
    | .error e => (.error (.error e), r)
  match arguments with
  | none => call none r
  | some a =>
    if (ctx.macros.get? name (some a.args.length)).isNone && (ctx.macros.arities name).contains none then
      call none (r.unread a.consumed)
    else call (some a.args) r

/-- Read the arguments of a call of a defined macro, if arguments follow and some variant takes them. -/
def readArguments (site : Site) (arities : List Arity) (r : Reader) :
    Except Failure (Option Reader.Arguments) × Reader :=
  match r.peek with
  | (.failed e, r') => (.error (.ofLex e), r')
  | (.finished, r') => (.ok none, r')
  | (.token t, r') =>
    if t.isSymbol "(" && arities ≠ [none] then
      match r'.arguments site.question with
      | (.ok a, r'') => (.ok (some a), r'')
      | (.error f, r'') => (.error f, r'')
    else (.ok none, r')

/-- Resolve a call with the given name. -/
def resolveName (ctx : Context) (site : Site) (name : Text) (nameToken : Token) (r : Reader) :
    Except Failure Call × Reader :=
  match Predefined.ofName? name with
  | some p =>
    match predefinedToken ctx r.inclusion.current site p with
    | .ok t => (.ok ⟨name, nameToken, .predefined t⟩, r)
    | .error f => (.error f, r)
  | none =>
    let arities := ctx.macros.arities name
    if arities.isEmpty then (.error (.diagnose (.undefinedMacro name) (some site.question.position)), r)
    else
      match readArguments site arities r with
      | (.ok arguments, r') => choose ctx site name nameToken arguments r'
      | (.error f, r') => (.error f, r')

/-- Resolve the call that follows a question mark. -/
def resolve (ctx : Context) (site : Site) (r : Reader) : Except Failure Call × Reader :=
  match r.read with
  | (.failed e, r') => (.error (.ofLex e), r')
  | (.finished, r') => (.error (.diagnose .missingMacroName (some site.question.position)), r')
  | (.token t, r') =>
    if t.kind = .atom || t.kind = .var then
      match t.value with
      | .ok name => resolveName ctx site name t r'
      | .error e => (.error (.fault (.escape e)), r')
    else (.error (.diagnose .missingMacroName (some t.position)), r')

/-- The tokens that replace a call. -/
def Meaning.tokens : Meaning → Except Fault (List Token)
  | .predefined t => .ok [t]
  | .definition m args => m.replace args

/-- Push the expansion of a call, unless it is nested too deep. -/
def push (ctx : Context) (site : Site) (call : Call) (r : Reader) : Except Failure Reader :=
  match call.meaning.tokens with
  | .error f => .error (.fault f)
  | .ok tokens =>
    if ctx.limit.value < site.depth then
      .error (.diagnose (.expansionTooDeep call.name ctx.limit site.callSite) (some site.question.position))
    else .ok (r.push ⟨tokens, some call.name, site.depth, some site.callSite⟩)

end Expansion

end ErlangMacros
