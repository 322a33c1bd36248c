import ErlangMacros.Lexer.Error
import ErlangMacros.Text.Alphanumeric
import ErlangMacros.Text.Case
import ErlangMacros.Token

/-!
# Scanning lexemes

The functions of this module look at the text that is still to be read and say how long the lexeme at its front
is.  They know nothing of positions: a lexeme is the front of the text, cut at the length they give.

Numbers and names are runs of characters.  A quoted lexeme is split into pieces, which are plain characters and
whole escape sequences.

A surrogate belongs to no class of characters.  In a comment, between quotes, behind a backslash and behind a dollar
sign any character may stand; a surrogate there cannot be read, and lexing breaks off.
-/

namespace ErlangMacros

namespace Scan

/-! ### Blanks and comments -/

/-- The length of the blanks and comments at the front of a text.  A comment runs to the end of its line, or up to a
surrogate; `comment` says whether the text starts inside of one. -/
def gap (comment : Bool) : List CodePoint → Nat
  | [] => 0
  | c :: cs =>
    if comment then if c.isChar then gap (c ≠ '\n') cs + 1 else 0
    else if Text.isBlank c then gap false cs + 1
    else if c = '%' then gap true cs + 1
    else 0

/-- A surrogate breaks off a comment at the front of a text. -/
def breaksOff (comment : Bool) : List CodePoint → Bool
  | [] => false
  | c :: cs =>
    if comment then if c.isChar then breaksOff (c ≠ '\n') cs else true
    else if Text.isBlank c then breaksOff false cs
    else if c = '%' then breaksOff true cs
    else false

/-- The text starts with the comment that a surrogate breaks off. -/
def startsBroken : List CodePoint → Bool
  | .char '%' :: cs => (cs.takeWhile (· ≠ CodePoint.char '\n')).any (!·.isChar)
  | _ => false

/-! ### Numbers -/

/-- The first character is there and is a digit. -/
def startsWithDigit (cs : List CodePoint) : Bool :=
  cs.head?.any Text.isDigit

/-- The length of a run of digits, in which a single underscore may stand between two digits.  `started` says
whether a digit stands before the text. -/
def digits (started : Bool) : List CodePoint → Nat
  | [] => 0
  | c :: cs =>
    if Text.isDigit c then digits true cs + 1
    else if c = '_' && startsWithDigit cs && started then digits true cs + 1
    else 0

/-- Characters of a number after its base. -/
def isBasedDigit (c : CodePoint) : Bool :=
  Text.isAlphanumeric c || c = '_'

/-- The length of the base mark and digits that may follow the digits of a base. -/
def basedDigits : List CodePoint → Nat
  | .char '#' :: c :: cs => if Text.isAlphanumeric c then ((c :: cs).takeWhile isBasedDigit).length + 1 else 0
  | _ => 0

/-- The length of an exponent. -/
def exponent : List CodePoint → Nat
  | e :: cs =>
    if e = 'e' || e = 'E' then
      match cs with
      | s :: ds =>
        if Text.isDigit s then digits false cs + 1
        else if (s = '+' || s = '-') && startsWithDigit ds then digits false ds + 2
        else 0
      | [] => 0
    else 0
  | [] => 0

/-- The length of a decimal point, the digits after it and an exponent. -/
def fraction : List CodePoint → Nat
  | .char '.' :: cs =>
    if startsWithDigit cs then
      let n := digits false cs
      n + exponent (cs.drop n) + 1
    else 0
  | _ => 0

/-- The kind and length of a number: digits, then the digits of a based integer or the fraction of a float. -/
def number (cs : List CodePoint) : Kind × Nat :=
  let n := digits false cs
  let rest := cs.drop n
  if 0 < basedDigits rest then (.integer, n + basedDigits rest)
  else if 0 < fraction rest then (.float, n + fraction rest)
  else (.integer, n)

/-! ### Names and symbols -/

/-- Characters of an atom or a variable. -/
def isNameChar (c : CodePoint) : Bool :=
  Text.isAlphanumeric c || c = '_' || c = '@'

/-- The length of a name. -/
def name (cs : List CodePoint) : Nat :=
  (cs.takeWhile isNameChar).length

/-- The operators.  An operator stands before each of its own beginnings. -/
def operators : List Text :=
  ["=:=", "=/=", "...", "<<", ">>", "->", "<-", "<=", "=<", ">=", "==", "/=", "=>", ":=", "||", "++", "--", "::",
   "..", "??", "!", "+", "-", "*", "/", "=", "<", ">", "#", ":", "?"]

/-- The punctuators. -/
def punctuators : List Text :=
  ["(", ")", "[", "]", "\x7b", "\x7d", ",", ".", ";", "|"]

/-- The text starts with `lexeme`. -/
def startsWith (cs : List CodePoint) (lexeme : Text) : Bool :=
  lexeme.toList.isPrefixOf cs

/-- The operator or punctuator at the front of a text. -/
def symbol? (cs : List CodePoint) : Option (Kind × Nat) :=
  match operators.find? (startsWith cs) with
  | some op => some (.operator, op.length)
  | none => (punctuators.find? (startsWith cs)).map fun p => (.punctuator, p.length)

/-! ### Quoted lexemes -/

/-- A fault inside a lexeme. -/
structure Fault where
  cause : LexCause
  /-- How far inside the lexeme the fault stands; `none` if the lexeme as a whole is to blame. -/
  place : Option Nat := none
  /-- How much of the text was read before the fault was found. -/
  reach : Nat
deriving DecidableEq

/-- The fault of a part that stands `n` characters inside the lexeme. -/
def Fault.shift (n : Nat) (f : Fault) : Fault :=
  { f with place := f.place.map (· + n), reach := f.reach + n }

/-- A surrogate stands `n` code points inside the lexeme, where a character is to be read. -/
def Fault.unencodable (n : Nat) : Fault :=
  { cause := .unencodable, place := some n, reach := n }

/-- The number that hexadecimal digits write. -/
def hexValue (digits : List CodePoint) : Nat :=
  (Text.digitsValue? 16 false 0 digits).getD 0

/-- The length of the escape sequence that follows a backslash.  Places inside of it count from the backslash. -/
def escape : List CodePoint → Except Fault Nat
  | [] => .error { cause := .unterminatedEscape, reach := 1 }
  | .char 'x' :: .char '{' :: cs =>
    let code := cs.takeWhile (· ≠ CodePoint.char '}')
    if code.any (!·.isChar) then .error (.unencodable ((code.takeWhile CodePoint.isChar).length + 3))
    else if code.length = cs.length then .error { cause := .unterminatedEscape, reach := code.length + 3 }
    else if code.isEmpty || !code.all Escape.isHex then
      .error { cause := .invalidHexEscape (Text.ofList code), place := some 0, reach := code.length + 4 }
    else if Escape.lastCode < hexValue code then
      .error { cause := .escapeOutOfRange (Text.ofList code), place := some 0, reach := code.length + 4 }
    else .ok (code.length + 3)
  | .char 'x' :: cs =>
    if 2 ≤ cs.length && (cs.take 2).all Escape.isHex then .ok 3
    else .error { cause := .missingHexDigits, place := some 0, reach := 2 }
  | [.char '^'] => .error { cause := .unterminatedEscape, reach := 2 }
  | .char '^' :: c :: _ => if c.isChar then .ok 2 else .error (.unencodable 2)
  | c :: cs =>
    if Escape.isOctal c then .ok (((c :: cs).takeWhile Escape.isOctal).take 3).length
    else if c.isChar then .ok 1
    else .error (.unencodable 1)

/-- A piece of a quoted lexeme. -/
inductive Piece where
  | plain (c : CodePoint)
  /-- An escape sequence, given by what follows its backslash. -/
  | escaped (body : List CodePoint)
deriving DecidableEq

namespace Piece

/-- The piece as it is written. -/
def text : Piece → List CodePoint
  | plain c => [c]
  | escaped body => '\\' :: body

/-- The length of a piece. -/
def length (p : Piece) : Nat :=
  p.text.length

end Piece

/-- The pieces up to the closing quote, which is not part of them.  `unclosed` is the cause to report if there is
no closing quote. -/
def pieces (quote : CodePoint) (unclosed : LexCause) (cs : List CodePoint) : Except Fault (List Piece) :=
  match cs with
  | [] => .error { cause := unclosed, reach := 0 }
  | c :: rest =>
    if c = quote then .ok []
    else if c = '\\' then
      match escape rest with
      | .error f => .error f
      | .ok n =>
        match pieces quote unclosed (rest.drop n) with
        | .error f => .error (f.shift (n + 1))
        | .ok ps => .ok (.escaped (rest.take n) :: ps)
    else if c.isChar then
      match pieces quote unclosed rest with
      | .error f => .error (f.shift 1)
      | .ok ps => .ok (.plain c :: ps)
    else .error (.unencodable 0)
termination_by cs.length
decreasing_by all_goals simp +arith

/-- The length of a quoted lexeme.  Its first character is taken as the opening quote, whatever it is. -/
def quoted (quote : CodePoint) (unclosed : LexCause) (cs : List CodePoint) : Except Fault Nat :=
  if cs.head?.all CodePoint.isChar then
    match pieces quote unclosed (cs.drop 1) with
    | .error f => .error (f.shift 1)
    | .ok ps => .ok (ps.foldl (fun n p => n + p.length) 2)
  else .error (.unencodable 0)

/-- The length of a character literal.  Its first character is taken as the dollar sign, whatever it is. -/
def character (cs : List CodePoint) : Except Fault Nat :=
  if cs.head?.all CodePoint.isChar then
    match cs.drop 1 with
    | [] => .error { cause := .missingCharacter, reach := 1 }
    | c :: rest =>
      if c = '\\' then
        match escape rest with
        | .error f => .error (f.shift 1)
        | .ok n => .ok (n + 2)
      else if c.isChar then .ok 2
      else .error (.unencodable 1)
  else .error (.unencodable 0)

end Scan

end ErlangMacros
