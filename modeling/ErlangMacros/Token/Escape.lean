import ErlangMacros.Text.Integer

/-!
# Escape sequences

Inside quotes a backslash introduces an escape sequence.  `unescape` gives the code points that a quoted text
stands for, which may be surrogates; `denote` says what a single sequence stands for and how long it is.
-/

namespace ErlangMacros

/-- Why an escape sequence stands for no code point. -/
inductive EscapeError where
  /-- The digits of a code are missing or malformed. -/
  | notANumber
  /-- The braces around a code are not closed. -/
  | unclosed
  /-- The code is negative or above the last code point. -/
  | outOfRange
  /-- The code does not even fit a 32 bit integer. -/
  | overflow
deriving DecidableEq

namespace Escape

/-- The sequences of one letter. -/
def letter? (c : CodePoint) : Option CodePoint :=
  match c with
  | .char 'b' => some '\x08'
  | .char 'd' => some '\x7f'
  | .char 'e' => some '\x1b'
  | .char 'f' => some '\x0c'
  | .char 'n' => some '\n'
  | .char 'r' => some '\r'
  | .char 's' => some ' '
  | .char 't' => some '\t'
  | .char 'v' => some '\x0b'
  | _ => none

/-- Octal digits. -/
def isOctal (c : CodePoint) : Bool :=
  '0'.toNat ≤ c.toNat && c.toNat ≤ '7'.toNat

/-- Hexadecimal digits. -/
def isHex (c : CodePoint) : Bool :=
  c.isDigit || ('a'.toNat ≤ c.toNat && c.toNat ≤ 'f'.toNat) || ('A'.toNat ≤ c.toNat && c.toNat ≤ 'F'.toNat)

/-- The last code point. -/
def lastCode : Nat := 0x10FFFF

/-- The code point for a code that was read as an integer. -/
def codePoint : Option Int → Except EscapeError CodePoint
  | none => .error .notANumber
  | some n =>
    if n < -0x80000000 || 0x7FFFFFFF < n then .error .overflow
    else if n < 0 || (lastCode : Int) < n then .error .outOfRange
    else .ok (.ofNat n.toNat)

/-- The value of octal digits. -/
def octalValue (digits : List CodePoint) : Nat :=
  digits.foldl (fun n c => 8 * n + (c.toNat - '0'.toNat)) 0

/-- What the sequence of a backslash and `e` stands for when `rest` follows, and how much of `rest` belongs to
it. -/
def denote (e : CodePoint) (rest : List CodePoint) : Except EscapeError (CodePoint × Nat) :=
  match letter? e with
  | some c => .ok (c, 0)
  | none =>
    if e = 'x' then
      match rest with
      | .char '{' :: code =>
        let digits := code.takeWhile (· ≠ CodePoint.char '}')
        if digits.length = code.length then .error .unclosed
        else (codePoint (Text.integer? 16 digits)).map fun c => (c, digits.length + 2)
      | _ => (codePoint (Text.integer? 16 (rest.take 2))).map fun c => (c, 2)
    else if isOctal e then
      let digits := ((e :: rest).takeWhile isOctal).take 3
      .ok (.ofNat (octalValue digits), digits.length - 1)
    else if e = '^' then
      match rest with
      | c :: _ => .ok (.ofNat (c.toNat % 32), 1)
      | [] => .ok (e, 0)
    else .ok (e, 0)

end Escape

/-- The code points that a text between quotes stands for.  A backslash at its end stands for itself. -/
def unescape (cs : List CodePoint) : Except EscapeError (List CodePoint) :=
  match cs with
  | [] => .ok []
  | [c] => .ok [c]
  | c :: e :: rest =>
    if c = '\\' then
      match Escape.denote e rest with
      | .error err => .error err
      | .ok (d, n) => (unescape (rest.drop n)).map (d :: ·)
    else (unescape (e :: rest)).map (c :: ·)
termination_by cs.length
decreasing_by all_goals simp +arith

end ErlangMacros
