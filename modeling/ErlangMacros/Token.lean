import ErlangMacros.Position
import ErlangMacros.Token.Escape

/-!
# Tokens

A token is a lexeme with its kind, its position, and whether blanks or a comment stand before it.
-/

namespace ErlangMacros

/-- The kinds of tokens. -/
inductive Kind where
  | atom
  | var
  | string
  | character
  | integer
  | float
  | operator
  | punctuator
  /-- A token of no particular kind, which no lexer makes. -/
  | other
deriving DecidableEq, Inhabited

namespace Kind

/-- The name of a kind. -/
def name : Kind → Text
  | atom => "Atom"
  | var => "Variable"
  | string => "StringConstant"
  | character => "CharacterConstant"
  | integer => "IntegerConstant"
  | float => "FloatConstant"
  | operator => "Operator"
  | punctuator => "Punctuator"
  | other => "Token"

/-- Operators and punctuators. -/
def isSymbol (k : Kind) : Bool :=
  k = operator || k = punctuator

end Kind

/-- A token. -/
structure Token where
  kind : Kind
  /-- The lexeme as it appears in the source. -/
  text : Text
  position : Position := {}
  /-- Blanks or a comment stand before the token. -/
  spaced : Bool := false
deriving DecidableEq, Inhabited

namespace Token

/-- Tokens are alike if they agree in kind and text, wherever they stand. -/
def alike (a b : Token) : Bool :=
  a.kind = b.kind && a.text = b.text

/-- The token is the operator or punctuator `text`. -/
def isSymbol (t : Token) (text : Text) : Bool :=
  t.kind.isSymbol && t.text = text

/-- The text between the quotes of a quoted token. -/
def quotedBody (t : Token) : List CodePoint :=
  (t.text.toList.drop 1).dropLast

/-- What an atom, a variable or a string stands for; other kinds have no value. -/
def value? (t : Token) : Option (Except EscapeError Text) :=
  match t.kind with
  | .atom => some <|
    if t.text.toList.head? = some (.char '\'') then (unescape t.quotedBody).map Text.ofList else .ok t.text
  | .var => some (.ok t.text)
  | .string => some ((unescape t.quotedBody).map Text.ofList)
  | _ => none

/-- The value of a token, or its text if it has none. -/
def value (t : Token) : Except EscapeError Text :=
  t.value?.getD (.ok t.text)

/-- The name that an atom or a variable stands for.  Any other token is a name by its text. -/
def nameValue (t : Token) : Except EscapeError Text :=
  if t.kind = .atom || t.kind = .var then t.value else .ok t.text

/-- The byte offset right after the token. -/
def stop (t : Token) : Nat :=
  t.position.offset.toNat + t.text.utf8ByteSize

/-- A token with all its fields. -/
def shown (t : Token) : Text :=
  t.kind.name ++ "(text=" ++ Text.shown t.text ++ ", position=" ++ t.position.shown ++
    ", prev_white=" ++ Text.shownBool t.spaced ++ ")"

end Token

/-- The texts of tokens, separated by single spaces. -/
def spacedTexts (ts : List Token) : Text :=
  Text.intercalate " " (ts.map (·.text))

/-- The token is there, and is the operator or punctuator `text`. -/
def isSymbol? (t : Option Token) (text : Text) : Bool :=
  t.any (·.isSymbol text)

/-- A class of tokens that a parser may ask for. -/
inductive TokenClass where
  | any
  | of (kind : Kind)
deriving DecidableEq

namespace TokenClass

/-- The token belongs to the class. -/
def contains (c : TokenClass) (t : Token) : Bool :=
  match c with
  | any => true
  | of k => t.kind = k

/-- How messages call a member of the class. -/
def description : TokenClass → Text
  | of .atom => "an atom"
  | of .var => "a variable"
  | of .string => "a string"
  | of .integer => "an integer"
  | of k => k.name
  | any => "Token"

end TokenClass

end ErlangMacros
