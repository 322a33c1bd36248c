import ErlangMacros.Directive.Keyword
import ErlangMacros.Lexer.Error
import ErlangMacros.Token

/-!
# Errors

An `Error` is a diagnosed mistake in what is preprocessed, with its cause and its position.  A `Fault` is anything
else that keeps an answer from being given, such as a file that is not text.  `Failure` is either of them.
-/

namespace ErlangMacros

/-- Why a list of tokens is not what a parser asks for. -/
inductive ParseError where
  | noTokens
  | expectedClass (classes : List TokenClass) (found : Text)
  | expectedText (text found : Text)
  | duplicateParameter (name : Text)
  | missingClose
  | missingTerm
  | invalidLine (text : Text)
deriving DecidableEq

/-- The text of the error. -/
def ParseError.message : ParseError → Text
  | noTokens => "No tokens left for cursor to traverse"
  | expectedClass classes found =>
    let wanted := Text.intercalate " or " (classes.map TokenClass.description)
    "Expected " ++ wanted ++ ", found '" ++ found ++ "'."
  | expectedText text found => "Expected '" ++ text ++ "', found '" ++ found ++ "'."
  | duplicateParameter name => "Duplicate parameter '" ++ name ++ "'."
  | missingClose => "Expected ')' before the final '.'."
  | missingTerm => "Expected a term."
  | invalidLine text => "Invalid line number '" ++ text ++ "'."

/-- Why a definition such as `NAME=value` defines no macro. -/
inductive DefinitionError where
  | lexing (e : LexError)
  | parsing (e : ParseError)
deriving DecidableEq

/-- The text of the error. -/
def DefinitionError.message : DefinitionError → Text
  | lexing e => e.message
  | parsing e => e.message

/-- A number of parameters or arguments, `none` if there is no list of them.  One that is asked for may be any
number. -/
abbrev Arity := Option Int

/-- An arity in words. -/
def Arity.describe : Arity → Text
  | none => "without arguments"
  | some n => "with " ++ Text.ofInt n ++ " argument(s)"

/-- A limit on nesting.  `label` is how messages show it. -/
structure DepthLimit where
  value : Int
  label : Text
deriving DecidableEq, Inhabited

/-- The limit `n`. -/
def DepthLimit.ofInt (n : Int) : DepthLimit :=
  ⟨n, Text.ofInt n⟩

/-- What is wrong with the arguments of a macro call. -/
inductive ArgumentsError where
  | inputEnds
  | missingBefore (symbol : Text)
  | unbalanced (expected found : Text)
deriving DecidableEq

/-- The causes of errors. -/
inductive Cause where
  | missingStop (keyword : Text)
  | invalidDirective (keyword : Text) (why : ParseError)
  | invalidDefinition (text : Text) (why : DefinitionError)
  | missingMacroName
  | alreadyDefined (name : Text) (arity : Arity) (earlier : Position)
  | redefinePredefined (name : Text)
  | undefinePredefined (name : Text)
  | undefineUnknown (name : Text)
  | undefinedMacro (name : Text)
  | noFileName
  | noModule (name : Text)
  | arityMismatch (name : Text) (arity : Arity) (defined : List Arity)
  | malformedArguments (why : ArgumentsError)
  | expansionTooDeep (name : Text) (limit : DepthLimit) (callSite : Position)
  | elseWithoutConditional
  | secondElse (opened : Option Position)
  | unmatchedEndif
  | unterminatedConditional
  | includeNotFound (path : Text)
  | includeUnreadable (path reason : Text)
  | includeTooDeep (limit : DepthLimit) (filename : Option Text)
  | user (message : Text)
  | lexing (cause : LexCause)
deriving DecidableEq

/-- The text of an error without its position. -/
def Cause.message : Cause → Text
  | missingStop keyword => "Missing '.' at the end of the -" ++ keyword ++ " directive."
  | invalidDirective keyword why => "Invalid -" ++ keyword ++ " directive. " ++ why.message
  | invalidDefinition text why => "Invalid macro definition '" ++ text ++ "'. " ++ why.message
  | missingMacroName => "Expected a macro name after '?'."
  | alreadyDefined name arity earlier =>
    "Macro '" ++ name ++ "' " ++ arity.describe ++ " is already defined at " ++ earlier.toString ++ "."
  | redefinePredefined name => "Cannot redefine predefined macro '" ++ name ++ "'."
  | undefinePredefined name => "Cannot undefine predefined macro '" ++ name ++ "'."
  | undefineUnknown name => "Cannot undefine unknown macro '" ++ name ++ "'."
  | undefinedMacro name => "Undefined macro '" ++ name ++ "'."
  | noFileName => "Macro 'FILE' is undefined: the input has no file name."
  | noModule name => "Macro '" ++ name ++ "' is undefined: no -module attribute has been seen."
  | arityMismatch name arity defined =>
    let known := Text.intercalate ", " (defined.map Arity.describe)
    "Macro '" ++ name ++ "' " ++ arity.describe ++ " is not defined (defined " ++ known ++ ")."
  | malformedArguments .inputEnds => "Input ends inside the arguments of a macro call."
  | malformedArguments (.missingBefore symbol) => "Expected a macro argument before '" ++ symbol ++ "'."
  | malformedArguments (.unbalanced expected found) =>
    "Unbalanced brackets: expected '" ++ expected ++ "', found '" ++ found ++ "'."
  | expansionTooDeep name limit callSite =>
    "Expansion of macro '" ++ name ++ "' is nested more than " ++ limit.label ++
      " levels deep (expanding the call at " ++ callSite.toString ++ ")."
  | elseWithoutConditional => "-else without -ifdef or -ifndef."
  | secondElse opened =>
    let place := (opened.map Position.toString).getD "None"
    "Second -else for the conditional opened at " ++ place ++ "."
  | unmatchedEndif => "-endif without -ifdef or -ifndef."
  | unterminatedConditional => "Conditional is not terminated by -endif."
  | includeNotFound path => "Cannot find include file '" ++ path ++ "'."
  | includeUnreadable path reason => "Cannot read include file '" ++ path ++ "': " ++ reason
  | includeTooDeep limit filename =>
    let file := filename.getD "None"
    "Include depth exceeds " ++ limit.label ++ " while including '" ++ file ++ "'."
  | user message => message
  | lexing cause => cause.message

/-- An error: every one ends the token stream that it is found in. -/
structure Error where
  cause : Cause
  position : Option Position := none
deriving DecidableEq

/-- The error as it is reported. -/
def Error.message (e : Error) : Text :=
  Position.label e.position e.cause.message

/-- Why a file cannot be opened. -/
inductive FileError where
  | notFound
  | notDirectory
  | isDirectory
  | nameTooLong
  | denied
deriving DecidableEq

namespace FileError

/-- The reason in words. -/
def reason : FileError → Text
  | notFound => "No such file or directory"
  | notDirectory => "Not a directory"
  | isDirectory => "Is a directory"
  | nameTooLong => "File name too long"
  | denied => "Permission denied"

/-- The number of the error. -/
def number : FileError → Nat
  | notFound => 2
  | notDirectory => 20
  | isDirectory => 21
  | nameTooLong => 36
  | denied => 13

end FileError

/-- Failures that are not diagnosed as an error of the input. -/
inductive Fault where
  /-- A file cannot be opened. -/
  | file (e : FileError) (path : Text)
  /-- A file is not text. -/
  | notText (path : Text)
  /-- A path holds a null character. -/
  | invalidPath
  /-- A surrogate stands where only characters can be encoded. -/
  | unencodable
  /-- A library name is an absolute path and so no pattern. -/
  | absolutePattern
  /-- A library name holds two stars in a row. -/
  | invalidPattern
  /-- A token made by hand has no value. -/
  | escape (e : EscapeError)
  /-- Tokens do not even start like a directive. -/
  | rejected (e : ParseError)
  /-- There is no directive of this name. -/
  | unknownKeyword (text : Text)
  /-- A macro was given a number of arguments that it does not take. -/
  | argumentCount (expected : Arity)
  /-- A setting has the wrong type. -/
  | setting (message : Text)
  /-- A setting is given although it is known already. -/
  | settingKnown (name : Text)
  /-- The input never ends. -/
  | endless
  /-- The given number of steps did not suffice. -/
  | outOfFuel
deriving DecidableEq

namespace Fault

/-- The fault in words. -/
def message : Fault → Text
  | file e path => "[Errno " ++ Text.ofInt e.number ++ "] " ++ e.reason ++ ": " ++ Text.shown path
  | notText path => path ++ " is not valid UTF-8"
  | invalidPath => "embedded null byte"
  | unencodable => LexCause.unencodable.message
  | absolutePattern => "Non-relative patterns are unsupported"
  | invalidPattern => "Invalid pattern: '**' can only be an entire path component"
  | escape _ => "invalid escape sequence"
  | rejected e => e.message
  | unknownKeyword text => Text.shown text
  | argumentCount none => "Macro expected no arguments."
  | argumentCount (some n) => "Macro expected " ++ Text.ofInt n ++ " arguments."
  | setting message => message
  | settingKnown name => "The setting '" ++ name ++ "' is known already."
  | endless => "The input never ends."
  | outOfFuel => "Too many steps."

end Fault

/-- Anything that keeps an answer from being given. -/
inductive Failure where
  | error (e : Error)
  | fault (f : Fault)
deriving DecidableEq

namespace Failure

/-- The failure with a diagnosed cause. -/
def diagnose (cause : Cause) (position : Option Position := none) : Failure :=
  error ⟨cause, position⟩

/-- The failure as it is reported. -/
def message : Failure → Text
  | error e => e.message
  | fault f => f.message

/-- The value of a token is used. -/
def ofEscape {α : Type} : Except EscapeError α → Except Failure α
  | .ok a => .ok a
  | .error e => .error (.fault (.escape e))

end Failure

end ErlangMacros
