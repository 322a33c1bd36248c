import ErlangMacros.Directive.Parser
import ErlangMacros.Lexer
import ErlangMacros.Macro

/-!
# Definitions on the command line

A definition such as `NAME(X)=body` defines a macro without a directive.  Without `=` the macro stands for `true`.
-/

namespace ErlangMacros

namespace Parser

/-- Match the head of a definition and the rest after `=` as its body. -/
def definition : Parser (Token × Option (List Token) × List Token) := do
  let name ← macroName
  let c ← get
  let params ← if isSymbol? c.token? "(" then some <$> paramList else pure none
  let c ← get
  if c.atEnd then return (name, params, [{ kind := .atom, text := "true", position := name.position }])
  else
    let _ ← exactly (.of .operator) "="
    return (name, params, (← get).rest)

end Parser

/-- The macro that a definition text defines. -/
def Macro.ofDefinition (text : Text) : Except Failure Macro :=
  let invalid (why : DefinitionError) : Except Failure Macro := .error (.diagnose (.invalidDefinition text why))
  let lexing := Lexing.ofText text
  match lexing.ending with
  | .failed e => if e.cause = .unencodable then .error (.fault .unencodable) else invalid (.lexing e)
  | .repeating _ => .error (.fault .endless)
  | .finished =>
    match Parser.definition { tokens := lexing.tokens } with
    | .ok (name, params, body) _ => Failure.ofEscape (Macro.make name params body)
    | .error (.fault (.rejected e)) _ => invalid (.parsing e)
    | .error f _ => .error f

end ErlangMacros
