import ErlangMacros.Token

/-!
# Directives

A directive runs from its `-` to its final `.`.  It keeps all its tokens besides what they ask for.
-/

namespace ErlangMacros

/-- What a directive asks for. -/
inductive Action where
  | define (name : Token) (params : Option (List Token)) (body : List Token)
  | undef (name : Token)
  | ifdef (name : Token)
  | ifndef (name : Token)
  | otherwise
  | endif
  | includeFile (path : Token)
  | includeLib (path : Token)
  | error (message : Text)
  | warning (message : Text)
  | file (name line : Token)
deriving DecidableEq

/-- A directive. -/
structure Directive where
  tokens : List Token
  action : Action
deriving DecidableEq

/-- Tokens as they are spelled, with one space where blanks stood. -/
def spelling : List Token → Text
  | [] => ""
  | t :: ts => t.text ++ Text.join (ts.map fun u => if u.spaced then " " ++ u.text else u.text)

namespace Directive

/-- A directive stands where its first token stands. -/
def position (d : Directive) : Position :=
  (d.tokens.head?.map (·.position)).getD {}

/-- The text of the keyword. -/
def keyword (d : Directive) : Text :=
  (d.tokens[1]?.map (·.text)).getD ""

/-- The line on which the directive ends. -/
def lastLine (d : Directive) : Int :=
  (d.tokens.getLast?.map (·.position.line)).getD 1

/-- The directive as it is spelled. -/
def spelled (d : Directive) : Text :=
  spelling d.tokens

end Directive

end ErlangMacros
