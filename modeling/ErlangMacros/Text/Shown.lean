import ErlangMacros.Text.Printable

/-!
# Shown texts

Messages show a text between quotes, with escapes for what would not be legible: `it's` is shown as `"it's"` and a
line end as `'\n'`.
-/

namespace ErlangMacros.Text

/-- The hexadecimal digits of `n`, filled with zeros up to `width`. -/
def hexDigits (width n : Nat) : Text :=
  let digits := Nat.toDigits 16 n
  ofString (String.ofList (List.replicate (width - digits.length) '0' ++ digits))

/-- A character inside a text shown between `quote` characters. -/
def shownChar (quote c : CodePoint) : Text :=
  if c == quote || c == '\\' then ofList ['\\', c]
  else if c == '\t' then "\\t"
  else if c == '\n' then "\\n"
  else if c == '\r' then "\\r"
  else if isPrintable c then c.toText
  else if c.toNat ≤ 0xFF then "\\x" ++ hexDigits 2 c.toNat
  else if c.toNat ≤ 0xFFFF then "\\u" ++ hexDigits 4 c.toNat
  else "\\U" ++ hexDigits 8 c.toNat

/-- A text as messages show it.  Single quotes are used unless that would need an escape that double quotes
avoid. -/
def shown (text : Text) : Text :=
  let cs := text.toList
  let quote : CodePoint := if cs.contains '\'' && !cs.contains '"' then '"' else '\''
  quote.toText ++ join (cs.map (shownChar quote)) ++ quote.toText

/-- An optional text as messages show it. -/
def shownOption : Option Text → Text
  | some text => shown text
  | none => "None"

/-- A list of shown items. -/
def shownList (items : List Text) : Text :=
  "[" ++ intercalate ", " items ++ "]"

/-- A truth value as messages show it. -/
def shownBool (b : Bool) : Text :=
  if b then "True" else "False"

end ErlangMacros.Text
