import ErlangMacros.Directive
import ErlangMacros.Error
import ErlangMacros.Token.Integer

/-!
# Parsing directives

A parser walks a cursor over a list of tokens.  When it fails, the cursor stays at the token that is to blame.
`Parser.directive` parses a whole directive; the parsers for single directives start at the keyword.
-/

namespace ErlangMacros

/-- A place in a list of tokens.  A place before the start of the list counts from its end. -/
structure Cursor where
  tokens : List Token
  pos : Int := 0
deriving DecidableEq

namespace Cursor

/-- The number of tokens before a place. -/
def offset (c : Cursor) (pos : Int) : Nat :=
  if 0 ≤ pos then pos.toNat else (c.tokens.length + pos).toNat

/-- The token at a place. -/
def tokenAt? (c : Cursor) (pos : Int) : Option Token :=
  if -c.tokens.length ≤ pos then c.tokens[c.offset pos]? else none

@[simp]
theorem offset_natCast (c : Cursor) (n : Nat) : c.offset n = n := by
  simp [offset]

@[simp]
theorem tokenAt?_natCast (c : Cursor) (n : Nat) : c.tokenAt? n = c.tokens[n]? := by
  rw [tokenAt?, if_pos (by omega), offset_natCast]

/-- The token at the cursor. -/
def token? (c : Cursor) : Option Token :=
  c.tokenAt? c.pos

/-- The tokens from the cursor on. -/
def rest (c : Cursor) : List Token :=
  c.tokens.drop (c.offset c.pos)

/-- The cursor is at the end of the list. -/
def atEnd (c : Cursor) : Bool :=
  c.pos = c.tokens.length

/-- The position to blame: that of the token at the cursor, or of the last one. -/
def position? (c : Cursor) : Option Position :=
  (c.tokenAt? (min c.pos (c.tokens.length - 1))).map (·.position)

end Cursor

/-- A parser moves the cursor, and leaves it where it failed. -/
abbrev Parser := EStateM Failure Cursor

namespace Parser

/-- Fail with a parse error. -/
def reject {α : Type} (e : ParseError) : Parser α :=
  throw (.fault (.rejected e))

/-- The token at the cursor. -/
def current : Parser Token := do
  match (← get).token? with
  | some t => return t
  | none => reject .noTokens

/-- Move to the next token. -/
def advance : Parser Unit :=
  modify fun c => { c with pos := c.pos + 1 }

/-- Move to a place. -/
def seek (pos : Int) : Parser Unit :=
  modify fun c => { c with pos }

/-- Match a token of one of the classes. -/
def ofClass (classes : List TokenClass) : Parser Token := do
  let t ← current
  if classes.any (·.contains t) then advance; return t
  else reject (.expectedClass classes t.text)

/-- Match a token of the class with the given text. -/
def exactly (wanted : TokenClass) (text : Text) : Parser Token := do
  let t ← current
  if wanted.contains t && t.text = text then advance; return t
  else reject (.expectedText text t.text)

/-- Match a punctuator. -/
def punctuator (text : Text) : Parser Unit := do
  let _ ← exactly (.of .punctuator) text

/-- Match an atom that is spelled `text`. -/
def keyword (text : Text) : Parser Unit := do
  let _ ← exactly (.of .atom) text

/-- Match the name of a macro, which is an atom or a variable. -/
def macroName : Parser Token :=
  ofClass [.of .atom, .of .var]

/-- Match the parameters that follow `seen`, up to the closing parenthesis; at most `bound` of them. -/
def moreParams (seen : List Token) : Nat → Parser (List Token)
  | 0 => reject .noTokens
  | bound + 1 => do
    let p ← ofClass [.of .var]
    if seen.any (·.text = p.text) then reject (.duplicateParameter p.text)
    let params := seen ++ [p]
    if (← current).isSymbol "," then
      advance
      moreParams params bound
    else
      punctuator ")"
      return params

/-- Match a parameter list: distinct variables between parentheses, separated by commas.  There are no more of them
than tokens. -/
def paramList : Parser (List Token) := do
  punctuator "("
  if (← current).isSymbol ")" then
    advance
    return []
  else moreParams [] ((← get).tokens.length + 1)

/-- Match the end of a directive. -/
def close : Parser Unit := do
  punctuator ")"
  punctuator "."

/-- The tokens up to the `)` before the final `.`, and then that end.  There have to be at least `least` of them. -/
def untilClose (least : Nat) (e : ParseError) : Parser (List Token) := do
  let c ← get
  let last : Int := c.tokens.length - 2
  if last < c.pos + least || !isSymbol? (c.tokenAt? last) ")" then
    seek (max c.pos last)
    reject e
  else
    seek last
    close
    return (c.tokens.take (c.offset last)).drop (c.offset c.pos)

/-- The directive of an action, with all tokens of the list. -/
def node (action : Action) : Parser Directive :=
  return ⟨(← get).tokens, action⟩

/-- Match a definition. -/
def define : Parser Directive := do
  keyword "define"
  punctuator "("
  let name ← macroName
  let params ← if (← current).isSymbol "(" then some <$> paramList else pure none
  punctuator ","
  let body ← untilClose 0 .missingClose
  node (.define name params body)

/-- Match a directive with a macro name in parentheses. -/
def nameDirective (text : Text) (action : Token → Action) : Parser Directive := do
  keyword text
  punctuator "("
  let name ← macroName
  close
  node (action name)

/-- Match a directive that is only a keyword. -/
def bareDirective (text : Text) (action : Action) : Parser Directive := do
  keyword text
  punctuator "."
  node action

/-- Match a directive with a path in parentheses. -/
def pathDirective (text : Text) (action : Token → Action) : Parser Directive := do
  keyword text
  punctuator "("
  let path ← ofClass [.of .string]
  close
  node (action path)

/-- The message that a term stands for: the value of a single string, or else its spelling. -/
def termMessage : List Token → Except EscapeError Text
  | [t] => if t.kind = .string then t.value else .ok t.text
  | ts => .ok (spacedTexts ts)

/-- Match a directive with a term in parentheses. -/
def messageDirective (text : Text) (action : Text → Action) : Parser Directive := do
  keyword text
  punctuator "("
  let term ← untilClose 1 .missingTerm
  match termMessage term with
  | .ok message => node (action message)
  | .error e => throw (.fault (.escape e))

/-- Match a directive that sets the reported file name and line. -/
def file : Parser Directive := do
  keyword "file"
  punctuator "("
  let name ← ofClass [.of .string]
  punctuator ","
  let line ← ofClass [.of .integer]
  if (integerValue? line.text).isNone then
    seek ((← get).pos - 1)
    reject (.invalidLine line.text)
  close
  node (.file name line)

/-- The parser for the directive of a keyword. -/
def ofKeyword : Keyword → Parser Directive
  | .define => define
  | .undef => nameDirective "undef" .undef
  | .ifdef => nameDirective "ifdef" .ifdef
  | .ifndef => nameDirective "ifndef" .ifndef
  | .otherwise => bareDirective "else" .otherwise
  | .endif => bareDirective "endif" .endif
  | .includeFile => pathDirective "include" .includeFile
  | .includeLib => pathDirective "include_lib" .includeLib
  | .error => messageDirective "error" .error
  | .warning => messageDirective "warning" .warning
  | .file => file

/-- Report a parse error as an invalid directive, at the place the cursor was left at. -/
def diagnosed (text : Text) (p : Parser Directive) : Parser Directive := fun c =>
  match p c with
  | .error (.fault (.rejected e)) c' => .error (.diagnose (.invalidDirective text e) c'.position?) c'
  | r => r

/-- Parse a directive from its `-` on. -/
def directive : Parser Directive := do
  let _ ← exactly (.of .operator) "-"
  let text := (← current).text
  match Keyword.ofText? text with
  | some k => diagnosed text (ofKeyword k)
  | none => throw (.fault (.unknownKeyword text))

end Parser

/-- The directive that a list of tokens is. -/
def Directive.parse (tokens : List Token) : Except Failure Directive :=
  match Parser.directive { tokens } with
  | .ok d _ => .ok d
  | .error e _ => .error e

end ErlangMacros
