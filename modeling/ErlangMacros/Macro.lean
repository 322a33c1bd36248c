import ErlangMacros.Error
import ErlangMacros.Token.Spelling

/-!
# Macros

A macro has a name, maybe a list of parameters, and a body.  A macro without a parameter list is different from one
with an empty list.  `Macro.replace` substitutes arguments for parameters, all at once: arguments are not looked at
again.
-/

namespace ErlangMacros

/-- A macro definition. -/
structure Macro where
  name : Text
  params : Option (List Text) := none
  body : List Token
  position : Position
deriving DecidableEq

namespace Macro

/-- The number of parameters, `none` without a parameter list. -/
def arity (m : Macro) : Arity :=
  m.params.map fun ps => ps.length

/-- The macro that a name, its parameters and a body define. -/
def make (name : Token) (params : Option (List Token)) (body : List Token) : Except EscapeError Macro :=
  name.nameValue.map fun n =>
    { name := n, params := params.map (·.map (·.text)), body, position := name.position }

/-- The index of a parameter. -/
def paramIndex? (m : Macro) (name : Text) : Option Nat :=
  m.params.bind (·.idxOf? name)

/-- The argument that a token of a body stands for. -/
def argument? (params : List Text) (args : List (List Token)) (t : Token) : Option (List Token) :=
  if t.kind = .var then (params.idxOf? t.text).bind (args[·]?) else none

/-- Substitute arguments for the parameters in a body.  A parameter becomes its argument, and `??` with a parameter
becomes a string that spells the argument. -/
def substitute (params : List Text) (args : List (List Token)) : List Token → List Token
  | [] => []
  | [t] => (argument? params args t).getD [t]
  | t :: u :: rest =>
    match t.isSymbol "??", argument? params args u with
    | true, some arg => stringify arg t :: substitute params args rest
    | _, _ => (argument? params args t).getD [t] ++ substitute params args (u :: rest)

/-- The tokens that a call of the macro is replaced by. -/
def replace (m : Macro) (args : Option (List (List Token))) : Except Fault (List Token) :=
  match m.params, args with
  | none, none => .ok m.body
  | some ps, some as => if as.length = ps.length then .ok (substitute ps as m.body) else .error (.argumentCount m.arity)
  | _, _ => .error (.argumentCount m.arity)

/-- A macro with all its fields. -/
def shown (m : Macro) : Text :=
  let name := Text.shown m.name
  let body := Text.shownList (m.body.map Token.shown)
  match m.params with
  | none => "Macro(name=" ++ name ++ ",replacement=" ++ body ++ ")"
  | some ps =>
    let params := Text.shownList (ps.map Text.shown)
    "MacroFunction(name=" ++ name ++ ",args=" ++ params ++ ",replacement=" ++ body ++ ")"

end Macro

end ErlangMacros
