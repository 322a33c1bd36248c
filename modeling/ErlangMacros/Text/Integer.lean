import ErlangMacros.Text.Blank
import ErlangMacros.Text.Digit

/-!
# Reading integers

An integer is written as an optional sign and digits in some base, with blanks around it allowed.  A single
underscore may stand between two digits.  In base 16, 8 and 2 the digits may follow a mark such as `0x`, and in
base 0 that mark chooses the base.  Decimal digits of every script are accepted, and any number of them: a reader may
refuse integers of more than 4300 digits, but no such limit is kept here.
-/

namespace ErlangMacros.Text

/-- The ASCII character that a character counts as when an integer is read: decimal digits of any script become
ASCII digits and blanks outside ASCII become spaces.  Other characters outside ASCII cannot occur. -/
def integerChar? (c : CodePoint) : Option CodePoint :=
  if c.toNat < 128 then some c
  else if isBlank c then some ' '
  else (decimalValue? c).map fun d => .char (Char.ofNat ('0'.toNat + d))

/-- The blanks that may surround an integer. -/
def isIntegerBlank (c : CodePoint) : Bool :=
  (9 ≤ c.toNat && c.toNat ≤ 13) || c == ' '

/-- The value of a digit in a base up to 36; letters of either case count from ten on. -/
def digitValue? (c : CodePoint) : Option Nat :=
  if c.isDigit then some (c.toNat - '0'.toNat)
  else if c.isLower then some (c.toNat - 'a'.toNat + 10)
  else if c.isUpper then some (c.toNat - 'A'.toNat + 10)
  else none

/-- The positional value of digits, added to what `acc` digits before them are worth.  `afterDigit` says whether
the previous character was a digit, which is what an underscore and the end of the text need. -/
def digitsValue? (base : Nat) : Bool → Nat → List CodePoint → Option Nat
  | afterDigit, acc, [] => if afterDigit then some acc else none
  | afterDigit, acc, c :: cs =>
    if c == '_' then
      if afterDigit then digitsValue? base false acc cs else none
    else
      match digitValue? c with
      | some d => if d < base then digitsValue? base true (acc * base + d) cs else none
      | none => none

/-- The base that the letter after a leading zero stands for. -/
def baseOfMark? (c : CodePoint) : Option Nat :=
  if c == 'x' || c == 'X' then some 16
  else if c == 'o' || c == 'O' then some 8
  else if c == 'b' || c == 'B' then some 2
  else none

/-- One underscore may follow the mark of a base. -/
def afterMark : List CodePoint → List CodePoint
  | .char '_' :: cs => cs
  | cs => cs

/-- The value of unsigned digits.  In base 0 a mark chooses the base; without one the base is ten, and a number
that starts with zero has to be zero. -/
def natural? (base : Nat) (cs : List CodePoint) : Option Nat :=
  match cs with
  | .char '0' :: m :: rest =>
    match baseOfMark? m with
    | some b =>
      if base = b || base = 0 then digitsValue? b false 0 (afterMark rest)
      else digitsValue? base false 0 cs
    | none =>
      if base = 0 then (digitsValue? 10 false 0 cs).filter (· = 0) else digitsValue? base false 0 cs
  | _ => digitsValue? (if base = 0 then 10 else base) false 0 cs

/-- The value of digits with an optional sign. -/
def signed? (base : Nat) : List CodePoint → Option Int
  | .char '-' :: cs => (natural? base cs).map fun n => -(n : Int)
  | .char '+' :: cs => (natural? base cs).map fun n => (n : Int)
  | cs => (natural? base cs).map fun n => (n : Int)

/-- Drop the blanks around an integer. -/
def trimBlanks (cs : List CodePoint) : List CodePoint :=
  ((cs.dropWhile isIntegerBlank).reverse.dropWhile isIntegerBlank).reverse

/-- The integer written by `cs` in `base`, which is 0 or 2 to 36. -/
def integer? (base : Nat) (cs : List CodePoint) : Option Int :=
  if base = 0 || (2 ≤ base && base ≤ 36) then
    (cs.mapM integerChar?).bind fun plain => signed? base (trimBlanks plain)
  else none

end ErlangMacros.Text
