import ErlangMacros.Text.CodeRange

/-!
# Blank characters

The characters that may stand between two tokens.  They are the characters with the bidirectional class of a
blank or a separator, so besides space, tab and the line ends they include the four ASCII separators and the wide
spaces outside ASCII.
-/

namespace ErlangMacros.Text

/-- The blank characters outside ASCII. -/
def blankRanges : List (Nat × Nat) :=
  [(0x0085, 0x0085), (0x00A0, 0x00A0), (0x1680, 0x1680), (0x2000, 0x200A), (0x2028, 0x2029), (0x202F, 0x202F),
   (0x205F, 0x205F), (0x3000, 0x3000)]

/-- Blanks: in ASCII the characters 9 to 13 and 28 to 32. -/
def isBlank (c : CodePoint) : Bool :=
  let n := c.toNat
  if n < 128 then (9 ≤ n && n ≤ 13) || (28 ≤ n && n ≤ 32) else inRanges blankRanges n

end ErlangMacros.Text
